import TcfAgent.Services.VirtualStream

/-!
# The output of `$printf`

`services/dprintf.c`: what a cache transaction prints is collected in `tmp_buf`, and goes to the
stream of the client when the transaction is committed. What the stream has no room for waits in
buffers, one of which is added each time the stream has space again; meanwhile the run control is
locked.

One client and its stream, with whoever reads it. The text that a format makes is given.

Main results:

* `output_kept` — every run: what is committed comes once, and in order unless it overtakes a
  buffer.
-/

namespace TcfAgent.Dprintf

open TcfAgent.Lib
open TcfAgent.StreamsService hiding Event step

/-- `Buffer`, whose size is the length of `buf`. -/
structure Buffer where
  buf  : List UInt8
  done : Nat := 0

/-- `Client`, with the locks of the run control that are held for it; `active` while a transaction
runs. -/
structure Client where
  vstream : VirtualStream
  bufs    : List Buffer := []
  tmpBuf  : List UInt8 := []
  locks   : Nat := 0
  active  : Bool := false

/-- `command_open` -/
def commandOpen (commands : List Command) : Client :=
  { vstream := virtualStreamCreate (subscriptionsAfter commands) [68, 80, 114, 105, 110, 116,
    102] 0x1000 }

/-- `virtual_stream_add_data`, with `*data_size`. -/
def addData (s : VirtualStream) (buf : List UInt8) : Option (Nat × VirtualStream) :=
  (virtualStreamAddData s buf false).map fun t => (if s.eosInp then 0 else acceptedSize s buf, t)

/-- `cache_transaction_listener`, for `CTLE_COMMIT`. -/
def commit (c : Client) : Option Client :=
  if c.tmpBuf = [] then some c
  else (addData c.vstream c.tmpBuf).map fun (done, vstream) =>
    if done < c.tmpBuf.length then
      { c with
        vstream
        bufs := c.bufs ++ [{ buf := c.tmpBuf.drop done }]
        locks := if c.bufs = [] then c.locks + 1 else c.locks }
    else { c with vstream }

/-- `streams_callback`, for `VS_EVENT_SPACE_AVAILABLE`. -/
def spaceAvailable (c : Client) : Option Client :=
  match c.bufs with
  | [] => some c
  | b :: rest => (addData c.vstream (b.buf.drop b.done)).bind fun (done, vstream) =>
    if b.done + done < b.buf.length then
      some { c with vstream, bufs := { b with done := b.done + done } :: rest }
    else if rest ≠ [] then some { c with vstream, bufs := rest }
    else if c.locks = 0 then none
    else some { c with vstream, bufs := [], locks := c.locks - 1 }

/-- `CTLE_START` or `CTLE_RETRY`, a `$printf`, the two ends of a transaction, what happens to the
stream. -/
inductive Event where
  | start
  | print (text : List UInt8)
  | abort
  | commit
  | stream (e : StreamsService.Event)

def step (c : Client) : Event → Option Client
  | .start => some { c with tmpBuf := [], active := true }
  | .print text => some { c with tmpBuf := c.tmpBuf ++ text }
  | .abort => some { c with active := false }
  | .commit => (commit c).map fun c => { c with active := false }
  | .stream e => (StreamsService.step c.vstream e).bind fun vstream =>
    match e with
    | .notifySpaceAvailable =>
      if vstream.deleted ∨ vstream.eosInp then some { c with vstream } else spaceAvailable
        { c with vstream }
    | _ => some { c with vstream }

def waiting (c : Client) : List UInt8 := c.bufs.flatMap fun b => b.buf.drop b.done

/-- What only the owner of a stream does. -/
def ofOwner : StreamsService.Event → Bool
  | .addData _ _ | .delete | .deleteStream => true
  | _ => false

/-- A transaction prints between its start and its end, the owner uses the stream for nothing else,
and the counters do not wrap. -/
def Enabled (c : Client) : Event → Prop
  | .start => c.active = false
  | .print text => c.active = true ∧ c.tmpBuf.length + text.length < 2 ^ 32
  | .abort => c.active = true
  | .commit => c.active = true ∧ c.vstream.accepted.length + c.tmpBuf.length < 2 ^ 64
  | .stream e =>
      Allowed c.vstream e ∧ ofOwner e = false ∧
      c.vstream.accepted.length + (waiting c).length < 2 ^ 64

/-- What is committed does not overtake a buffer. -/
def Careful (c : Client) : Event → Prop
  | .commit => c.tmpBuf = [] ∨ c.bufs = [] ∨ acceptedSize c.vstream c.tmpBuf = 0
  | _ => True

instance (c : Client) (e : Event) : Decidable (Enabled c e) := by
  cases e <;> unfold Enabled <;> infer_instance

/-- What the transaction that is going on has printed, and what has been committed. -/
def printed : List UInt8 × List UInt8 → Event → List UInt8 × List UInt8
  | (_, all), .start => ([], all)
  | (text, all), .print more => (text ++ more, all)
  | (_, all), .abort => ([], all)
  | (text, all), .commit => ([], all ++ text)
  | p, .stream _ => p

def committed (es : List Event) : List UInt8 := (es.foldl printed ([], [])).2

/-! ## The stream -/

/-- What only the owner changes. -/
def owned (s : VirtualStream) : Bool × Bool × List UInt8 × Nat :=
    (s.deleted, s.eosInp, s.accepted, s.bufLen)

/-- The owner is going to be told that there is room, or can be when something has been read. -/
def Awake (s : VirtualStream) : Prop := s.spaceAvailablePosted = true ∨ 0 < s.dataSize

variable {s t : VirtualStream} {c : Client} {e : Event} {p : List UInt8 × List UInt8}

theorem owned_advance (h : advanceStreamBuffer s = some t) : owned t = owned s ∧
    (Awake s → Awake t) := by
  obtain ⟨bufOut, -, rfl⟩ := Option.map_eq_some_iff.1 h
  refine ⟨rfl, fun hAwake => ?_⟩
  by_cases hSame : s.dataSize = ({ s with bufOut } : VirtualStream).dataSize
  · rcases hAwake with hPosted | hSome
    · exact .inl (by simp [hPosted])
    · exact .inr (hSame ▸ hSome)
  · exact .inl (by simp [hSame])

theorem owned_step {e : StreamsService.Event} (hOther : ofOwner e = false)
    (h : StreamsService.step s e = some t) :
    owned t = owned s ∧ (e ≠ .notifySpaceAvailable → Awake s → Awake t) := by
  have hAdvance {u : VirtualStream} (hAdvance : advanceStreamBuffer u = some t) (hOwned :
    owned u = owned s)
      (hAwake : Awake s → Awake u) :
        owned t = owned s ∧ (e ≠ .notifySpaceAvailable → Awake s → Awake t) :=
    ⟨(owned_advance hAdvance).1.trans hOwned, fun _ hs => (owned_advance hAdvance).2 (hAwake hs)⟩
  cases e with
  | addData | delete | deleteStream => cases hOther
  | connect k =>
    obtain rfl := Option.some.inj h
    unfold virtualStreamConnect
    split
    · exact ⟨rfl, fun _ => id⟩
    · split <;> exact ⟨rfl, fun _ => id⟩
  | notifySpaceAvailable =>
    obtain ⟨-, h⟩ := Option.ite_none_right_eq_some.1 h
    cases h
    exact ⟨rfl, fun hNot => absurd rfl hNot⟩
  | disconnect k =>
    simp only [StreamsService.step, virtualStreamDisconnect, deleteClient] at h
    split at h
    · cases h
      exact ⟨rfl, fun _ => id⟩
    · obtain ⟨-, h⟩ := Option.ite_none_right_eq_some.1 h
      split at h
      · obtain ⟨-, h⟩ := Option.ite_none_right_eq_some.1 h
        cases h
        exact ⟨rfl, fun _ => id⟩
      · exact hAdvance h rfl id
  | read k token size =>
    simp only [StreamsService.step, virtualStreamRead] at h
    split at h
    · cases h
      exact ⟨rfl, fun _ => id⟩
    · split at h
      · cases h
        exact ⟨rfl, fun _ => id⟩
      · obtain ⟨-, h⟩ := Option.ite_none_right_eq_some.1 h
        obtain ⟨_, -, h⟩ := Option.bind_eq_some_iff.1 h
        exact hAdvance h rfl id

/-- The stream of a client: its assertions hold, and it has neither ended nor been deleted. -/
structure Open (s : VirtualStream) : Prop where
  inv : Inv s
  deleted : s.deleted = false
  eosInp : s.eosInp = false
  bufLen : s.bufLen = 0x1001

theorem Open.of_owned (h : Open s) (hInv : Inv t) {accepted : List UInt8}
    (hOwned : owned t = owned { s with accepted }) : Open t ∧ t.accepted = accepted := by
  obtain ⟨hDeleted, hEos, hAccepted, hLen⟩ : _ ∧ _ ∧ _ ∧ _ := by simpa [owned] using hOwned
  exact ⟨⟨hInv, hDeleted.trans h.deleted, hEos.trans h.eosInp, hLen.trans h.bufLen⟩, hAccepted⟩

theorem Open.addData (h : Open s) {buf : List UInt8}
    (hSmall : s.accepted.length + buf.length < 2 ^ 64)
    (hSome : buf ≠ []) :
    ∃ t, addData s buf = some (acceptedSize s buf, t) ∧
      (Open t ∧ t.accepted = s.accepted ++ buf.take (acceptedSize s buf)) ∧ Awake t := by
  have hLe : acceptedSize s buf ≤ buf.length := Nat.min_le_right _ _
  have hMagic := h.inv.counted.magic_of_deleted h.deleted
  obtain ⟨t, hAdd, hInv⟩ := @Inv.addData s h.inv buf false hMagic (by omega)
  have hSize := h.inv.ring.acceptedSize_eq buf
  have hStored : Awake (storeData s (buf.take (acceptedSize s buf))) := by
    have hData := (@RingOk.storeData s h.inv.ring (buf.take (acceptedSize s buf))
      (by rw [List.length_take]; omega) (by rw [List.length_take]; omega)).2
    have hPos := List.length_pos_iff.2 hSome
    have hLen := h.bufLen
    rw [List.length_take] at hData
    exact .inr (by omega)
  have hOwned : owned t = owned (storeData s (buf.take (acceptedSize s buf))) ∧ Awake t := by
    unfold virtualStreamAddData at hAdd
    rw [if_neg (by simp [hMagic]), if_neg (by simp [h.eosInp])] at hAdd
    simp only [Bool.false_eq_true, false_and, ↓reduceIte] at hAdd
    split at hAdd
    · obtain ⟨clients, -, hAdd⟩ := Option.bind_eq_some_iff.1 hAdd
      exact ⟨(owned_advance hAdd).1, (owned_advance hAdd).2 hStored⟩
    · cases hAdd
      exact ⟨rfl, hStored⟩
  refine ⟨t, ?_, h.of_owned hInv hOwned.1, hOwned.2⟩
  rw [Dprintf.addData, hAdd, h.eosInp]
  rfl

/-! ## Runs -/

/-- `careful` when nothing has overtaken a buffer. -/
structure Kept (careful : Prop) (c : Client) (p : List UInt8 × List UInt8) : Prop where
  stream : Open c.vstream
  text : c.active = true → c.tmpBuf = p.1
  locks : c.locks = if c.bufs = [] then 0 else 1
  full : ∀ b ∈ c.bufs, b.done < b.buf.length
  once : (c.vstream.accepted ++ waiting c).Perm p.2
  order : careful → c.vstream.accepted ++ waiting c = p.2

/-- Between steps. -/
structure Ready (careful : Prop) (c : Client) (p : List UInt8 × List UInt8) :
    Prop extends Kept careful c p where
  wakes : c.bufs ≠ [] → Awake c.vstream

variable {careful : Prop}

/-- Bytes go from the buffers to the stream. -/
theorem Kept.of_same (h : Kept careful c p) {bufs : List Buffer} {locks : Nat} (hOpen : Open t)
    (hLocks : locks = if bufs = [] then 0 else 1) (hFull : ∀ b ∈ bufs, b.done < b.buf.length)
    (hSame : t.accepted ++ waiting { c with bufs } = c.vstream.accepted ++ waiting c) :
    Kept careful { c with vstream := t, bufs, locks } p :=
  ⟨hOpen, h.text, hLocks, hFull, hSame ▸ h.once, fun hCareful => hSame.trans (h.order hCareful)⟩

theorem Kept.spaceAvailable (h : Kept careful c p)
    (hSmall : c.vstream.accepted.length + (waiting c).length < 2 ^ 64) :
    ∃ c', spaceAvailable c = some c' ∧ Ready careful c' p := by
  obtain ⟨vstream, bufs, tmpBuf, locks, active⟩ := c
  rcases bufs with _ | ⟨b, rest⟩
  · exact ⟨_, rfl, h, fun hNe => absurd rfl hNe⟩
  · have hLocks : locks = 1 := h.locks
    have hStream : Open vstream := h.stream
    have hSmall : vstream.accepted.length + _ < _ := hSmall
    obtain ⟨hMore, hFull⟩ := List.forall_mem_cons.1 h.full
    simp only [waiting, List.flatMap_cons, List.length_append] at hSmall
    obtain ⟨t, hAdd, ⟨hOpen, hAccepted⟩, hAwake⟩ :=
      @Open.addData _ hStream (b.buf.drop b.done) (by omega)
      (by simpa using hMore)
    simp only [Dprintf.spaceAvailable, hAdd, Option.bind_some]
    generalize acceptedSize vstream (b.buf.drop b.done) = k at hAccepted
    have hMoved (left : List UInt8) (hLeft : left = b.buf.drop (b.done + k)) :
        t.accepted ++ (left ++ rest.flatMap fun b => b.buf.drop b.done) =
          vstream.accepted ++ (b.buf.drop b.done ++ rest.flatMap fun b => b.buf.drop b.done) := by
      rw [hAccepted, hLeft, ← List.drop_drop, List.append_assoc,
        ← List.append_assoc (List.take _ _),
        List.take_append_drop]
    by_cases hLeft : b.done + k < b.buf.length
    · rw [if_pos hLeft]
      exact ⟨_, rfl, h.of_same hOpen hLocks (List.forall_mem_cons.2 ⟨hLeft, hFull⟩) (hMoved _ rfl),
        fun _ => hAwake⟩
    · have hEnd := hMoved [] (List.drop_of_length_le (not_lt.1 hLeft)).symm
      rw [if_neg hLeft]
      by_cases hRest : rest = []
      · subst hRest
        rw [if_neg (by simp), if_neg (by omega)]
        exact ⟨_, rfl, h.of_same hOpen (by simp [hLocks]) hFull hEnd, fun _ => hAwake⟩
      · rw [if_pos hRest]
        exact ⟨_, rfl, h.of_same hOpen (by rw [if_neg hRest, hLocks]) hFull hEnd, fun _ => hAwake⟩

/-- The part `x` of what is committed goes to the stream, the part `y` behind the buffers. -/
theorem Ready.commit (h : Ready careful c p)
    (hSmall : c.vstream.accepted.length + c.tmpBuf.length < 2 ^ 64)
    (hCareful : careful → Careful c .commit) :
    ∃ c', commit c = some c' ∧ Ready careful { c' with active := false } ([], p.2 ++ c.tmpBuf) := by
  by_cases hNone : c.tmpBuf = []
  · rw [hNone, List.append_nil]
    exact ⟨c, if_pos hNone, { h with text := fun hFalse => by cases hFalse }⟩
  · obtain ⟨t, hAdd, ⟨hOpen, hAccepted⟩, hAwake⟩ := h.stream.addData hSmall hNone
    have hZero : acceptedSize c.vstream c.tmpBuf = 0 →
      c.tmpBuf.take (acceptedSize c.vstream c.tmpBuf) = [] :=
      fun hZero => by rw [hZero, List.take_zero]
    -- what the stream has not accepted waits in a buffer of its own
    have hReady {bufs : List Buffer} {locks : Nat} (hLocks : locks = if bufs = [] then 0 else 1)
        (hFull : ∀ b ∈ bufs, b.done < b.buf.length)
        (hWaiting :
          waiting { c with bufs } = waiting c ++ c.tmpBuf.drop (acceptedSize c.vstream c.tmpBuf)) :
        Ready careful { c with vstream := t, bufs, locks, active := false }
          ([], p.2 ++ c.tmpBuf) := by
      have hParts := List.take_append_drop (acceptedSize c.vstream c.tmpBuf) c.tmpBuf
      generalize c.tmpBuf.drop (acceptedSize c.vstream c.tmpBuf) = y at hWaiting hParts
      generalize c.tmpBuf.take (acceptedSize c.vstream c.tmpBuf) = x at hAccepted hZero hParts
      refine ⟨⟨hOpen, fun hFalse => (by cases hFalse), hLocks, hFull, ?_, fun hc => ?_⟩,
        fun _ => hAwake⟩
      · show (t.accepted ++ waiting { c with bufs }).Perm _
        rw [hWaiting, hAccepted, ← hParts, List.append_assoc]
        refine ((List.perm_append_comm_assoc _ _ _).append_left _).trans ?_
        rw [← List.append_assoc]
        exact h.once.append_right _
      · show t.accepted ++ waiting { c with bufs } = _
        rw [hWaiting, hAccepted, ← hParts, ← h.order hc]
        rcases (hCareful hc).resolve_left hNone with hBufs | hNo
        · simp [waiting, hBufs]
        · simp [hZero hNo]
    simp only [Dprintf.commit, if_neg hNone, hAdd, Option.map_some]
    split
    · refine ⟨_, rfl, hReady ?_ ?_ (by simp [waiting])⟩
      · rw [h.locks]
        split <;> simp
      · intro b hb
        rcases List.mem_append.1 hb with hb | hb
        · exact h.full b hb
        · obtain rfl := List.mem_singleton.1 hb
          show 0 < (List.drop _ _).length
          rw [List.length_drop]
          omega
    · exact ⟨_, rfl,
        hReady h.locks h.full (by rw [List.drop_of_length_le (by omega), List.append_nil])⟩

theorem Ready.step (h : Ready careful c p) (hEnabled : Enabled c e)
    (hCareful : careful → Careful c e) :
    ∃ c', step c e = some c' ∧ Ready careful c' (printed p e) := by
  cases e with
  | start => exact ⟨_, rfl, { h with text := fun _ => rfl }⟩
  | print text =>
      exact ⟨_, rfl, { h with text := fun hActive => congrArg (· ++ text) (h.text hActive) }⟩
  | abort => exact ⟨_, rfl, { h with text := fun hFalse => by cases hFalse }⟩
  | commit =>
    obtain ⟨c', hCommit, hNext⟩ := h.commit hEnabled.2 hCareful
    rw [h.text hEnabled.1] at hNext
    exact ⟨_, by rw [Dprintf.step, hCommit]; rfl, hNext⟩
  | stream e =>
    obtain ⟨hAllowed, hOther, hSmall⟩ := hEnabled
    obtain ⟨t, hStep, hInv⟩ := h.stream.inv.step hAllowed
    obtain ⟨hOwned, hAwake⟩ := owned_step hOther hStep
    obtain ⟨hOpen, hAccepted⟩ := h.stream.of_owned hInv hOwned
    have hNext := h.of_same hOpen h.locks h.full (congrArg (· ++ waiting c) hAccepted)
    simp only [Dprintf.step, hStep, Option.bind_some]
    split
    · rw [if_neg (by simp [hOpen.deleted, hOpen.eosInp])]
      exact hNext.spaceAvailable (by rw [hAccepted]; exact hSmall)
    · exact ⟨_, rfl, hNext, fun hSome => hAwake ‹_› (h.wakes hSome)⟩

theorem run_ready {es : List Event} (h : Ready careful c p) (hEnabled : Meets step Enabled c es)
    (hCareful : careful → Meets step Careful c es) :
    ∃ c', run step c es = some c' ∧ Ready careful c' (es.foldl printed p) := by
  induction es generalizing c p with
  | nil => exact ⟨c, rfl, h⟩
  | cons e es ih =>
    obtain ⟨c', hStep, hNext⟩ := h.step hEnabled.1 fun hc => (hCareful hc).1
    rw [run_cons, hStep]
    exact ih hNext (hEnabled.2 c' hStep) fun hc => (hCareful hc).2 c' hStep

theorem owned_create (subscriptions : List Subscription) :
    owned (subscriptions.foldl (fun s h => createClient s h.channel) s) = owned s := by
  induction subscriptions generalizing s with
  | nil => rfl
  | cons h rest ih => exact ih

/-- What the client and the readers of its stream see after some events. -/
structure Delivers (commands : List Command) (es : List Event) (c : Client) : Prop where
  once : (c.vstream.accepted ++ waiting c).Perm (committed es)
  order : Meets step Careful (commandOpen commands) es →
    c.vstream.accepted ++ waiting c = committed es
  sent : ∀ k ∈ c.vstream.clients ++ c.vstream.closed,
    received k.sent <+: c.vstream.accepted.drop k.start
  locks : c.locks = if c.bufs = [] then 0 else 1
  wakes : c.bufs ≠ [] → Awake c.vstream

/-- What is committed is accepted by the stream once, or waits; a reader gets what has been accepted
since it was connected, in order; and the run control is locked as long as something waits, which is
not forgotten. -/
theorem output_kept (commands : List Command) {es : List Event}
    (h : Meets step Enabled (commandOpen commands) es) :
    ∃ c, run step (commandOpen commands) es = some c ∧ Delivers commands es c := by
  have hInv :=
    @inv_virtualStreamCreate commands [68, 80, 114, 105, 110, 116, 102] 0x1000 (by decide)
  have hOwned := @owned_create { buf := fun _ => 0, bufLen := 0x1001 }
    ((subscriptionsAfter commands).filter (·.type == [68, 80, 114, 105, 110, 116, 102]))
  obtain ⟨hDeleted, hEos, hAccepted, hLen⟩ : _ ∧ _ ∧ _ ∧ _ := by simpa [owned] using hOwned
  have hStart :
    Ready (Meets step Careful (commandOpen commands) es) (commandOpen commands) ([], []) := by
    refine ⟨⟨⟨hInv, hDeleted, hEos, hLen⟩, fun hFalse => (by cases hFalse), rfl,
      List.forall_mem_nil _, ?_, fun _ => ?_⟩,
      fun hNe => absurd rfl hNe⟩
    · exact (congrArg (· ++ []) hAccepted) ▸ List.Perm.refl _
    · exact congrArg (· ++ []) hAccepted
  obtain ⟨c, hRun, hReady⟩ := run_ready hStart h id
  refine ⟨c, hRun, hReady.once, hReady.order, fun k hk => ?_, hReady.locks, hReady.wakes⟩
  rcases List.mem_append.1 hk with hk | hk
  · exact (hReady.stream.inv.follows k hk).sent.data
  · exact (hReady.stream.inv.closed k hk).data

/-- A transaction that is tried twice, and a reader. -/
theorem output_kept_sample :
    ∃ c, run step (commandOpen [.subscribe 1 [68, 80, 114, 105, 110, 116, 102]])
    [.start, .print [65], .abort, .start, .print [65, 66], .commit, .stream (.read 1 [49] 9)] =
    some c ∧
    Delivers [.subscribe 1 [68, 80, 114, 105, 110, 116, 102]]
      [.start, .print [65], .abort, .start, .print [65, 66], .commit, .stream (.read 1 [49] 9)] c :=
  output_kept _ (by decide +kernel)

end TcfAgent.Dprintf
