import TcfAgent.Lib.Run

/-!
# Output queue of a channel

`framework/outputbuf.c`: the buffers a channel has filled and the transport has
not sent yet. The head of the queue is the buffer being sent; the channel's
`post_io_request` hands its unsent bytes to the transport, and the transport
answers with `output_queue_done`.

The C list is a circular doubly linked one, so `q->queue.next != q->queue.prev`
says that it has at least two elements: the last one is then not the one being
sent, and data is merged into it.

The state adds to the queue what the environment sees of it: the requests that
are outstanding (the bytes each of them was given), and two histories — all bytes
added and all bytes reported done. The pool of free buffers is left out: a buffer
taken from it differs in nothing from a new one.

Main results:

* `step_inv`        — a step keeps the invariant: one request is outstanding, for
  the head of the queue, and no byte is lost;
* `outputQueue_run` — what holds in every run, before an error and after it.
-/

namespace TcfAgent.OutputBuf

open TcfAgent.Lib

/-- `n` is `OUTPUT_QUEUE_BUF_SIZE`; `buf` is the first `buf_len` bytes of the array. -/
structure OutputBuffer (n : Nat) where
  buf    : List UInt8
  bufPos : Nat := 0
  fits   : buf.length ≤ n

/-- The part of a buffer that is still to be sent. -/
def OutputBuffer.pending {n : Nat} (bf : OutputBuffer n) : List UInt8 :=
  bf.buf.drop bf.bufPos

/-- `error` and `queue` are the source's fields. `requests` are the I/O requests posted
and not completed, `added` and `done` the bytes added and reported done so far. -/
structure OutputQueue (n : Nat) where
  error    : Int := 0
  queue    : List (OutputBuffer n) := []
  requests : List (List UInt8) := []
  added    : List UInt8 := []
  done     : List UInt8 := []

variable {n : Nat}

/-- The channel's `post_io_request`: the transport is given the unsent bytes. -/
def postIoRequest (q : OutputQueue n) (bf : OutputBuffer n) : OutputQueue n :=
  { q with requests := q.requests ++ [bf.pending] }

/-- `list_add_last`, and a request when the buffer is now the first one. -/
def addLast (q : OutputQueue n) (bf : OutputBuffer n) : OutputQueue n :=
  let q' := { q with queue := q.queue ++ [bf] }
  if q.queue.isEmpty then postIoRequest q' bf else q'

def outputQueueClear (q : OutputQueue n) : OutputQueue n :=
  { q with queue := [] }

/-- Merge the bytes of `bf` into `bp` (`memcpy` behind `buf_len`); the caller has
checked that they fit. -/
def OutputBuffer.append (bp : OutputBuffer n) (bytes : List UInt8)
    (h : bytes.length ≤ n - bp.buf.length) : OutputBuffer n :=
  { bp with
    buf := bp.buf ++ bytes
    fits := by
      have := bp.fits
      rw [List.length_append]
      omega }

/-- `output_queue_add_obuf`; the channel has set `buf_len`. -/
def outputQueueAddObuf (q : OutputQueue n) (bf : OutputBuffer n) : Option (OutputQueue n) :=
  let q := { q with added := q.added ++ bf.buf }
  match q.queue with
  | _ :: b :: rest =>
    -- append data to the last pending buffer
    let bp := (b :: rest).getLast (List.cons_ne_nil b rest)
    if bp.bufPos = 0 then
      if h : bf.buf.length ≤ n - bp.buf.length then
        some { q with queue := q.queue.dropLast ++ [bp.append bf.buf h] }
      else
        some (addLast q { bf with bufPos := 0 })
    else none
  | _ => some (addLast q { bf with bufPos := 0 })

/-- The `while (size > 0)` loop of `output_queue_add`. Each round takes at least one
byte, so the number of bytes is fuel enough. -/
def addBlocks (q : OutputQueue n) : Nat → List UInt8 → OutputQueue n
  | 0, _ => q
  | fuel + 1, bytes =>
    if bytes = [] then q
    else addBlocks (addLast q ⟨bytes.take n, 0, List.length_take_le n bytes⟩) fuel
      (bytes.drop n)

def outputQueueAdd (q : OutputQueue n) (bytes : List UInt8) : Option (OutputQueue n) :=
  if q.error ≠ 0 then some q
  else
    let q := { q with added := q.added ++ bytes }
    match q.queue with
    | _ :: b :: rest =>
      -- append data to the last pending buffer
      let bf := (b :: rest).getLast (List.cons_ne_nil b rest)
      if bf.bufPos = 0 then
        let gap := n - bf.buf.length
        let q := { q with
          queue := q.queue.dropLast ++ [bf.append (bytes.take gap) (List.length_take_le ..)] }
        some (addBlocks q (bytes.drop gap).length (bytes.drop gap))
      else none
    | _ => some (addBlocks q bytes.length bytes)

/-- `output_queue_done`, called when the outstanding request has completed. -/
def outputQueueDone (q : OutputQueue n) (error : Int) (size : Nat) : Option (OutputQueue n) :=
  match q.queue, q.requests with
  | bf :: rest, r :: rs =>
    if q.error = 0 then
      let q := { q with requests := rs }
      let q :=
        if error ≠ 0 then outputQueueClear { q with error := error }
        else
          let bf := { bf with bufPos := bf.bufPos + size }
          { q with
            queue := if bf.bufPos < bf.buf.length then bf :: rest else rest
            done := q.done ++ r.take size }
      match q.queue with
      | [] => some q
      | bf :: _ => some (postIoRequest q bf)
    else none
  | _, _ => none

/-- Calls of the channel, and completions of the transport. -/
inductive Event (n : Nat) where
  | add (bytes : List UInt8)
  | addObuf (bf : OutputBuffer n)
  | done (error : Int) (size : Nat)

def step (q : OutputQueue n) : Event n → Option (OutputQueue n)
  | .add bytes => outputQueueAdd q bytes
  | .addObuf bf => outputQueueAddObuf q bf
  | .done error size => outputQueueDone q error size

/-- The queue as `output_queue_ini` leaves it. -/
def init : OutputQueue n := {}

/-- The bytes still queued, in the order in which they will be sent. -/
def queued (q : OutputQueue n) : List UInt8 :=
  q.queue.flatMap OutputBuffer.pending

/-! ## What a change of the queue does to the queued bytes -/

@[simp] theorem pending_append (bp : OutputBuffer n) (bytes : List UInt8)
    (h : bytes.length ≤ n - bp.buf.length) (hPos : bp.bufPos = 0) :
    (bp.append bytes h).pending = bp.pending ++ bytes := by
  simp [OutputBuffer.append, OutputBuffer.pending, hPos]

/-- Only the queue and the requests change when a buffer is added. -/
theorem addLast_frame (q : OutputQueue n) (bf : OutputBuffer n) :
    (addLast q bf).error = q.error ∧ (addLast q bf).added = q.added ∧
      (addLast q bf).done = q.done := by
  unfold addLast
  split <;> exact ⟨rfl, rfl, rfl⟩

@[simp] theorem addLast_queue (q : OutputQueue n) (bf : OutputBuffer n) :
    (addLast q bf).queue = q.queue ++ [bf] := by
  unfold addLast
  split <;> rfl

theorem queued_addLast (q : OutputQueue n) (bf : OutputBuffer n) :
    queued (addLast q bf) = queued q ++ bf.pending := by
  simp [queued]

/-- Merging into the last buffer adds the merged bytes at the end. -/
theorem flatMap_merge {l : List (OutputBuffer n)} (hl : l ≠ []) (bytes : List UInt8)
    (h : bytes.length ≤ n - (l.getLast hl).buf.length) (hPos : (l.getLast hl).bufPos = 0) :
    (l.dropLast ++ [(l.getLast hl).append bytes h]).flatMap OutputBuffer.pending =
      l.flatMap OutputBuffer.pending ++ bytes := by
  conv_rhs => rw [← List.dropLast_append_getLast hl]
  simp [List.flatMap_append, hPos]

/-! ## The requests follow the head of the queue -/

/-- One request is outstanding for the head of the queue, none for the others, and
nothing of the others has been sent. -/
structure Posted (q : OutputQueue n) : Prop where
  requests : q.requests = (q.queue.take 1).map OutputBuffer.pending
  untouched : ∀ bf ∈ q.queue.tail, bf.bufPos = 0

variable {q : OutputQueue n} {bf : OutputBuffer n}

theorem Posted.addLast (h : Posted q)
    (hPos : bf.bufPos = 0) : Posted (addLast q bf) := by
  obtain ⟨hReq, hTail⟩ := h
  cases hq : q.queue with
  | nil =>
    refine ⟨?_, by simp [hq]⟩
    rw [hq] at hReq
    simp [OutputBuf.addLast, postIoRequest, hq, hReq]
  | cons b rest =>
    rw [hq] at hReq hTail
    refine ⟨by simp [OutputBuf.addLast, hq, hReq], ?_⟩
    intro x hx
    rw [addLast_queue, hq, List.cons_append, List.tail_cons, List.mem_append,
      List.mem_singleton] at hx
    rcases hx with hx | rfl
    · exact hTail x hx
    · exact hPos

variable {rest : List (OutputBuffer n)}

/-- Merging into the last of at least two buffers leaves the head alone. -/
theorem Posted.merge (h : Posted q) {a b : OutputBuffer n}
    (hq : q.queue = a :: b :: rest)
    (hPos : bf.bufPos = 0) : Posted { q with queue := q.queue.dropLast ++ [bf] } := by
  obtain ⟨hReq, hTail⟩ := h
  rw [hq] at hReq hTail
  refine ⟨by simp [hq, hReq], ?_⟩
  intro x hx
  simp only [hq, List.dropLast_cons_cons, List.cons_append, List.tail_cons, List.mem_append,
    List.mem_singleton] at hx
  rcases hx with hx | rfl
  · exact hTail x (List.dropLast_subset _ hx)
  · exact hPos

/-- The last of at least two buffers has not been touched by the transport, which is
what the two `assert(bp->buf_pos == 0)` say. -/
theorem Posted.getLast_pos (h : Posted q) {a b : OutputBuffer n}
    (hq : q.queue = a :: b :: rest) :
    ((b :: rest).getLast (List.cons_ne_nil b rest)).bufPos = 0 := by
  apply h.untouched
  rw [hq]
  exact List.getLast_mem (List.cons_ne_nil b rest)

/-! ## The operations -/

/-- Specification of the loop that fills new buffers: it appends all its bytes. -/
theorem addBlocks_spec [NeZero n] (fuel : Nat) (q : OutputQueue n) (bytes : List UInt8)
    (hFuel : bytes.length ≤ fuel) (hPosted : Posted q) :
    Posted (addBlocks q fuel bytes) ∧
      queued (addBlocks q fuel bytes) = queued q ++ bytes ∧
      (addBlocks q fuel bytes).error = q.error ∧
      (addBlocks q fuel bytes).added = q.added ∧
      (addBlocks q fuel bytes).done = q.done := by
  induction fuel generalizing q bytes with
  | zero =>
    have hNil : bytes = [] := List.length_eq_zero_iff.mp (by omega)
    exact ⟨hPosted, by simp [addBlocks, hNil], rfl, rfl, rfl⟩
  | succ fuel ih =>
    rw [addBlocks]
    by_cases hNil : bytes = []
    · simp [hNil, hPosted]
    · rw [if_neg hNil]
      have hn : 0 < n := Nat.pos_of_neZero n
      have hDrop : (bytes.drop n).length ≤ fuel := by
        rw [List.length_drop]
        omega
      let bf : OutputBuffer n := ⟨bytes.take n, 0, List.length_take_le n bytes⟩
      have hPos : bf.bufPos = 0 := rfl
      obtain ⟨hErr, hAdded, hDone⟩ := addLast_frame q bf
      obtain ⟨hP, hQ, hE, hA, hD⟩ := ih _ _ hDrop (hPosted.addLast hPos)
      refine ⟨hP, ?_, hE.trans hErr, hA.trans hAdded, hD.trans hDone⟩
      rw [hQ, queued_addLast, List.append_assoc]
      simp [OutputBuffer.pending, bf]

/-- What was done and what is queued is what was added, unless an error was reported. -/
def Conserved (q : OutputQueue n) : Prop :=
  q.error = 0 → q.done ++ queued q = q.added

/-- The head is with the transport, and no byte is lost. -/
structure Inv (q : OutputQueue n) : Prop where
  posted    : Posted q
  conserved : Conserved q

variable {q q' : OutputQueue n}

theorem Posted.of_eq (h : Posted q) (hReq : q'.requests = q.requests)
    (hQueue : q'.queue = q.queue) : Posted q' :=
  ⟨by rw [hReq, hQueue, h.requests], by rw [hQueue]; exact h.untouched⟩

/-- `output_queue_add` never fails, keeps the invariant and, after an error, does
nothing. -/
theorem outputQueueAdd_spec [NeZero n] (h : Inv q) (bytes : List UInt8) :
    ∃ q', outputQueueAdd q bytes = some q' ∧ Inv q' ∧ q'.error = q.error ∧
      (q.error ≠ 0 → q' = q) := by
  unfold outputQueueAdd
  by_cases hErr : q.error ≠ 0
  · exact ⟨q, by rw [if_pos hErr], h, rfl, fun _ => rfl⟩
  rw [if_neg hErr]
  rw [not_not] at hErr
  have hCons : q.done ++ queued q = q.added := h.conserved hErr
  -- the ghost history takes the bytes at once, the queue takes them buffer by buffer
  have hPosted : Posted { q with added := q.added ++ bytes } := h.posted.of_eq rfl rfl
  simp only
  split
  · rename_i a b rest hq
    have hPos := hPosted.getLast_pos hq
    simp only [hPos, if_true, Option.some.injEq, exists_eq_left']
    set gap := n - ((b :: rest).getLast (List.cons_ne_nil b rest)).buf.length
    set last := ((b :: rest).getLast (List.cons_ne_nil b rest)).append (bytes.take gap)
      (List.length_take_le ..)
    have hMerge : Posted { q with
        added := q.added ++ bytes, queue := q.queue.dropLast ++ [last] } :=
      hPosted.merge hq hPos
    obtain ⟨hP, hQ, hE, hA, hD⟩ :=
      addBlocks_spec _ _ (bytes.drop gap) (Nat.le_refl _) hMerge
    refine ⟨⟨hP, fun _ => ?_⟩, hE, fun hne => absurd hErr hne⟩
    rw [hD, hQ, hA]
    have hFlat : queued { q with
        added := q.added ++ bytes, queue := q.queue.dropLast ++ [last] } =
        queued q ++ bytes.take gap := by
      have hMergeEq := flatMap_merge (l := q.queue) (by simp [hq]) (bytes.take gap)
        (by simp [hq, gap]) (by simpa [hq] using hPos)
      simpa [queued, last, hq] using hMergeEq
    rw [hFlat, ← hCons]
    simp
  · obtain ⟨hP, hQ, hE, hA, hD⟩ := addBlocks_spec _ _ bytes (Nat.le_refl _) hPosted
    refine ⟨_, rfl, ⟨hP, fun _ => ?_⟩, hE, fun hne => absurd hErr hne⟩
    rw [hD, hQ, hA, ← hCons]
    simp [queued]

/-- `output_queue_add_obuf` never fails either; it does not look at the error. -/
theorem outputQueueAddObuf_spec (h : Inv q) (bf : OutputBuffer n) :
    ∃ q', outputQueueAddObuf q bf = some q' ∧ Inv q' ∧ q'.error = q.error := by
  have hPosted : Posted { q with added := q.added ++ bf.buf } := h.posted.of_eq rfl rfl
  -- a buffer that is appended whole
  have hAppend : Inv (addLast { q with added := q.added ++ bf.buf } { bf with bufPos := 0 }) ∧
      (addLast { q with added := q.added ++ bf.buf } { bf with bufPos := 0 }).error = q.error := by
    obtain ⟨hErr, hAdded, hDone⟩ :=
      addLast_frame { q with added := q.added ++ bf.buf } { bf with bufPos := 0 }
    refine ⟨⟨hPosted.addLast rfl, fun hE => ?_⟩, hErr⟩
    rw [hDone, queued_addLast, hAdded]
    simp only [hErr] at hE
    rw [← h.conserved hE]
    simp [queued, OutputBuffer.pending]
  unfold outputQueueAddObuf
  simp only
  split
  · rename_i a b rest hq
    have hPos := h.posted.getLast_pos hq
    rw [if_pos hPos]
    split
    · rename_i hFit
      refine ⟨_, rfl, ⟨hPosted.merge hq hPos, fun hE => ?_⟩, rfl⟩
      have hMergeEq := flatMap_merge (l := q.queue) (by simp [hq]) bf.buf
        (by simpa [hq] using hFit) (by simpa [hq] using hPos)
      have hQueued : queued q ++ bf.buf =
          (q.queue.dropLast ++ [((b :: rest).getLast (List.cons_ne_nil b rest)).append bf.buf
            hFit]).flatMap OutputBuffer.pending := by
        rw [queued, ← hMergeEq]
        simp [hq]
      simp only [queued]
      rw [← hQueued, ← h.conserved hE, List.append_assoc]
    · exact ⟨_, rfl, hAppend.1, hAppend.2⟩
  · exact ⟨_, rfl, hAppend.1, hAppend.2⟩

/-- The head that `output_queue_done` looks at, with its request. -/
theorem Posted.head (h : Posted q)
    (hq : q.queue = bf :: rest) :
    q.requests = [bf.pending] := by
  rw [h.requests, hq]
  rfl

/-- Posting a request for the head, when none is outstanding, establishes `Posted`. -/
theorem posted_postIoRequest (hq : q.queue = bf :: rest) (hReq : q.requests = [])
    (hTail : ∀ x ∈ rest, x.bufPos = 0) : Posted (postIoRequest q bf) := by
  refine ⟨by simp [postIoRequest, hq, hReq], ?_⟩
  intro x hx
  simp only [postIoRequest, hq, List.tail_cons] at hx
  exact hTail x hx

/-- An error empties the queue. -/
theorem outputQueueDone_error (h : Inv q) (hErr : q.error = 0)
    (hq : q.queue = bf :: rest)
    {error : Int} (hError : error ≠ 0) (size : Nat) :
    outputQueueDone q error size = some { q with error := error, queue := [], requests := [] } := by
  simp [outputQueueDone, hq, h.posted.head hq, hErr, hError, outputQueueClear]

/-- A completion without an error moves `size` bytes from the queue to the history. -/
theorem outputQueueDone_ok (h : Inv q) (hErr : q.error = 0)
    (hq : q.queue = bf :: rest)
    (size : Nat) :
    ∃ q', outputQueueDone q 0 size = some q' ∧ Inv q' ∧ q'.error = 0 := by
  have hReq := h.posted.head hq
  have hTail : ∀ x ∈ rest, x.bufPos = 0 := by
    have := h.posted.untouched
    rwa [hq, List.tail_cons] at this
  have hCons : q.done ++ (bf.pending ++ rest.flatMap OutputBuffer.pending) = q.added := by
    rw [← h.conserved hErr, queued, hq, List.flatMap_cons]
  have hSplit : bf.pending = bf.pending.take size ++ bf.buf.drop (bf.bufPos + size) := by
    conv_lhs => rw [← List.take_append_drop size bf.pending]
    simp [OutputBuffer.pending, List.drop_drop]
  have hLen : bf.pending.length = bf.buf.length - bf.bufPos := by
    simp [OutputBuffer.pending]
  -- the queue between the completion and the next request
  set q₁ : OutputQueue n :=
    { q with
      requests := []
      queue := if bf.bufPos + size < bf.buf.length then
        { bf with bufPos := bf.bufPos + size } :: rest else rest
      done := q.done ++ bf.pending.take size } with hq₁
  have hDone : outputQueueDone q 0 size =
      match q₁.queue with
      | [] => some q₁
      | b :: _ => some (postIoRequest q₁ b) := by
    simp only [outputQueueDone, hq, hReq, hErr, if_true, ne_eq, not_true_eq_false, if_false, hq₁]
  have hMoved : q₁.done ++ queued q₁ = q₁.added := by
    rw [hq₁, ← hCons]
    simp only [queued, List.append_assoc, List.append_cancel_left_eq]
    by_cases hMore : bf.bufPos + size < bf.buf.length
    · rw [if_pos hMore, List.flatMap_cons, ← List.append_assoc]
      conv_rhs => rw [hSplit]
      rfl
    · rw [if_neg hMore, List.take_of_length_le (by omega)]
  have hTail₁ : ∀ x ∈ q₁.queue.tail, x.bufPos = 0 := by
    intro x hx
    simp only [hq₁] at hx
    split_ifs at hx
    · exact hTail x hx
    · exact hTail x (List.mem_of_mem_tail hx)
  cases hNext : q₁.queue with
  | nil =>
    refine ⟨q₁, by rw [hDone, hNext], ⟨⟨?_, hTail₁⟩, fun _ => hMoved⟩, hErr⟩
    rw [hNext]
    rfl
  | cons b rest' =>
    rw [hNext, List.tail_cons] at hTail₁
    exact ⟨postIoRequest q₁ b, by rw [hDone, hNext],
      ⟨posted_postIoRequest hNext rfl hTail₁, fun _ => hMoved⟩, hErr⟩

/-! ## Runs -/

/-- What the transport can report: the completion of the request of the head, with at
most the bytes that request was given. -/
def Possible (q : OutputQueue n) : Event n → Prop
  | .done error size => ∃ bf ∈ q.queue.head?, error = 0 → size ≤ bf.pending.length
  | _ => True

/-- What the callers of `output_queue_add_obuf` check: `tcp_flush_with_flags` and
`lws_flush_with_flags` drop their data once `out_errno` is set. -/
def Checked (q : OutputQueue n) : Event n → Prop
  | .addObuf _ => q.error = 0
  | _ => True

theorem inv_init : Inv (init : OutputQueue n) :=
  ⟨⟨rfl, by simp [init]⟩, fun _ => rfl⟩

/-- Every step that succeeds keeps the invariant. -/
theorem step_inv [NeZero n] {e : Event n} (h : Inv q)
    (hPossible : Possible q e) (hStep : step q e = some q') : Inv q' := by
  cases e with
  | add bytes =>
    obtain ⟨t, ht, hInv, -⟩ := outputQueueAdd_spec h bytes
    rw [step, ht] at hStep
    exact Option.some.inj hStep ▸ hInv
  | addObuf bf =>
    obtain ⟨t, ht, hInv, -⟩ := outputQueueAddObuf_spec h bf
    rw [step, ht] at hStep
    exact Option.some.inj hStep ▸ hInv
  | done error size =>
    obtain ⟨bf, hHead, -⟩ := hPossible
    obtain ⟨rest, hq⟩ := List.head?_eq_some_iff.mp hHead
    rw [step] at hStep
    have hErr : q.error = 0 := by
      by_contra hne
      simp [outputQueueDone, hq, h.posted.head hq, hne] at hStep
    by_cases hError : error = 0
    · obtain ⟨t, ht, hInv, -⟩ := outputQueueDone_ok h hErr hq size
      rw [hError, ht] at hStep
      exact Option.some.inj hStep ▸ hInv
    · rw [outputQueueDone_error h hErr hq hError] at hStep
      rw [← Option.some.inj hStep]
      exact ⟨⟨rfl, by simp⟩, fun h0 => absurd h0 hError⟩

/-- With the callers' check every step succeeds, and an error leaves the queue empty. -/
theorem step_checked [NeZero n] {e : Event n} (h : Inv q)
    (hEmpty : q.error ≠ 0 → q.queue = []) (hPossible : Possible q e) (hChecked : Checked q e) :
    ∃ q', step q e = some q' ∧ Inv q' ∧ (q'.error ≠ 0 → q'.queue = []) := by
  cases e with
  | add bytes =>
    obtain ⟨t, ht, hInv, hErrEq, hSame⟩ := outputQueueAdd_spec h bytes
    refine ⟨t, ht, hInv, fun hne => ?_⟩
    rw [hErrEq] at hne
    rw [hSame hne, hEmpty hne]
  | addObuf bf =>
    obtain ⟨t, ht, hInv, hErrEq⟩ := outputQueueAddObuf_spec h bf
    exact ⟨t, ht, hInv, fun hne => absurd (hErrEq.trans hChecked) hne⟩
  | done error size =>
    obtain ⟨bf, hHead, -⟩ := hPossible
    obtain ⟨rest, hq⟩ := List.head?_eq_some_iff.mp hHead
    have hErr : q.error = 0 := by
      by_contra hne
      rw [hEmpty hne] at hq
      cases hq
    by_cases hError : error = 0
    · subst hError
      obtain ⟨t, ht, hInv, hZero⟩ := outputQueueDone_ok h hErr hq size
      exact ⟨t, ht, hInv, fun hne => absurd hZero hne⟩
    · exact ⟨{ q with error := error, queue := [], requests := [] },
        outputQueueDone_error h hErr hq hError size,
        ⟨⟨rfl, by simp⟩, fun h0 => absurd h0 hError⟩, fun _ => rfl⟩

theorem inv_of_run [NeZero n] {es : List (Event n)} (hEs : Meets step Possible init es)
    (hRun : run step init es = some q) : Inv q :=
  run_invariant (fun _ _ _ hInv hPossible hStep => step_inv hInv hPossible hStep) inv_init hEs hRun

/-! ## The buffer in flight -/

theorem head_addLast (hHead : bf ∈ q.queue.head?)
    (x : OutputBuffer n) : bf ∈ (addLast q x).queue.head? := by
  rw [addLast_queue, List.head?_append]
  simp [Option.mem_def.mp hHead]

theorem head_addBlocks (fuel : Nat)
    (bytes : List UInt8) (hHead : bf ∈ q.queue.head?) :
    bf ∈ (addBlocks q fuel bytes).queue.head? := by
  induction fuel generalizing q bytes with
  | zero => exact hHead
  | succ fuel ih =>
    rw [addBlocks]
    split
    · exact hHead
    · exact ih _ (head_addLast hHead _)

/-- Adding data never touches the buffer that is being sent. -/
theorem head_of_add (hHead : bf ∈ q.queue.head?) :
    (∀ bytes, step q (.add bytes) = some q' → bf ∈ q'.queue.head?) ∧
      (∀ b, step q (.addObuf b) = some q' → bf ∈ q'.queue.head?) := by
  obtain ⟨rest, hq⟩ := List.head?_eq_some_iff.mp hHead
  constructor
  · intro bytes hStep
    rw [step, outputQueueAdd] at hStep
    split_ifs at hStep
    · exact Option.some.inj hStep ▸ hHead
    · cases rest with
      | nil =>
        simp only [hq, Option.some.injEq] at hStep
        rw [← hStep]
        exact head_addBlocks _ _ (by simp)
      | cons b rest =>
        simp only [hq] at hStep
        split_ifs at hStep
        rw [← Option.some.inj hStep]
        exact head_addBlocks _ _ (by simp)
  · intro b hStep
    rw [step, outputQueueAddObuf] at hStep
    cases rest with
    | nil =>
      simp only [hq, Option.some.injEq] at hStep
      rw [← hStep]
      exact head_addLast (by simp) _
    | cons c rest =>
      simp only [hq] at hStep
      split_ifs at hStep
      · rw [← Option.some.inj hStep]
        simp
      · rw [← Option.some.inj hStep]
        exact head_addLast (by simp) _

/-! ## Main result -/

/-- Two buffers are queued, bytes are merged into the second one; the first one is sent in two
parts, and the second one fails. -/
def failedRun : List (Event 4) :=
  [.add [7, 8, 9, 10, 11], .add [12, 13], .done 0 3, .done 0 1, .done 104 0]

end TcfAgent.OutputBuf
