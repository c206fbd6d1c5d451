import TcfAgent.Framework.InputBuf

/-!
# The input buffer, function by function

Scanning a chunk is handling, one after the other, the values found in it (`scan_eq`),
and these only move the counters (`arriveAll_counts`). Where unread bytes lie in the
circle (`Layout`), the free space is what a read request may offer (`Layout.free`), and
`ibuf_get_more` gives the first value of what is unread, with a window of bytes behind it
(`getMoreLoop_value`), or finds none (`getMoreLoop_noData`).
-/

namespace TcfAgent.Ibuf

open TcfAgent.Lib TcfAgent.Lib.Ring TcfAgent.Streams

variable {ub : UInt8 → Nat → Nat} {inputQueue : Bool} {s : InputBuf}

/-! ## Scanning a chunk -/

/-- What the arrival of a value does to the counters. -/
def arrive (s : InputBuf) : Symbol → Option InputBuf
  | .value (.byte _) => some s
  | .value .eom =>
    if s.longMsg then
      if s.messageCount = 1 then some { s with longMsg := false } else none
    else some (ibufNewMessage s)
  | .value .eos => some (ibufEof s)
  | .invalid _ => some (ibufEof s)

def arriveAll (s : InputBuf) (syms : List Symbol) : Option InputBuf := syms.foldlM arrive s

@[simp] theorem arriveAll_nil (s : InputBuf) : arriveAll s [] = some s := rfl

@[simp] theorem arriveAll_cons (s : InputBuf) (x : Symbol) (syms : List Symbol) :
    arriveAll s (x :: syms) = (arrive s x).bind fun t => arriveAll t syms := rfl

theorem arriveAll_append (s : InputBuf) (xs ys : List Symbol) :
    arriveAll s (xs ++ ys) = (arriveAll s xs).bind fun t => arriveAll t ys :=
  List.foldlM_append

/-- The scanner has moved on: its state and `inp`. -/
def place (s : InputBuf) (sc : EscState) (p : Nat) : InputBuf := { s with scanner := sc, inp := p }

theorem ibufEof_place (s : InputBuf) (sc : EscState) (p : Nat) :
    ibufEof (place s sc p) = place (ibufEof s) sc p := by
  cases hEof : s.eof with
  | true => simp [ibufEof, place, hEof]
  | false => simp [ibufEof, ibufNewMessage, triggerMessage, place, hEof]

/-- The counters do not look at the scanner. -/
theorem arrive_place (s : InputBuf) (sc : EscState) (p : Nat) (x : Symbol) :
    arrive (place s sc p) x = (arrive s x).map fun t => place t sc p := by
  rcases x with (_ | _ | _) | _
  · rfl
  · by_cases hLong : s.longMsg = true
    · by_cases hOne : s.messageCount = 1
      · simp [arrive, place, hLong, hOne]
      · simp [arrive, place, hLong, hOne]
    · simp [arrive, place, ibufNewMessage, triggerMessage, hLong]
  · exact congrArg some (ibufEof_place s sc p)
  · exact congrArg some (ibufEof_place s sc p)

theorem arriveAll_place (s : InputBuf) (sc : EscState) (p : Nat) (xs : List Symbol) :
    arriveAll (place s sc p) xs = (arriveAll s xs).map fun t => place t sc p := by
  induction xs generalizing s with
  | nil => rfl
  | cons x xs ih =>
    rw [arriveAll_cons, arriveAll_cons, arrive_place]
    cases arrive s x with
    | none => rfl
    | some t => exact ih t

/-- Raw and plain bytes do not count. -/
theorem arriveAll_bytes (s : InputBuf) (data : List UInt8) :
    arriveAll s (data.map fun b => .value (.byte b)) = some s := by
  induction data with
  | nil => rfl
  | cons b data ih => simpa [arrive] using ih

/-- An escape and the size of a block do not meet. -/
def WellFormed (st : EscState) : Prop := st.esc = true → st.sizeMode = 0 ∧ st.dataSize = 0

theorem wellFormed_init : WellFormed {} := by
  intro h
  exact ⟨rfl, rfl⟩

variable {st : EscState}

theorem WellFormed.esc_eq_false (h : WellFormed st)
    (hBusy : st.sizeMode ≠ 0 ∨ st.dataSize ≠ 0) : st.esc = false := by
  cases hEsc : st.esc with
  | false => rfl
  | true =>
    obtain ⟨h1, h2⟩ := h hEsc
    omega

theorem WellFormed.next (h : WellFormed st) (ch : UInt8) :
    WellFormed (escNext ub st ch) := by
  intro hEsc
  by_cases hBusy : st.sizeMode ≠ 0 ∨ st.dataSize ≠ 0
  · -- the escape flag stays clear
    have hClear := h.esc_eq_false hBusy
    by_cases hSize : st.sizeMode = 0
    · have hData : 0 < st.dataSize := by omega
      simp [escNext, hSize, hData, hClear] at hEsc
    · simp [escNext, hSize, hClear] at hEsc
  · simp only [not_or, not_not] at hBusy
    obtain ⟨hSize, hData⟩ := hBusy
    simp only [escNext, hSize, hData, ne_eq, not_true_eq_false, if_false, lt_irrefl] at hEsc ⊢
    split_ifs at hEsc ⊢ with hFlag hBlock hOpen
    · exact ⟨rfl, rfl⟩
    · exact ⟨hSize, hData⟩

theorem WellFormed.final (h : WellFormed st) (bytes : List UInt8) :
    WellFormed ((escape ub).final st bytes) := by
  induction bytes generalizing st with
  | nil => exact h
  | cons ch bytes ih => exact ih (h.next ch)

/-- The place behind `k` more bytes. -/
def behind (s : InputBuf) (k : Nat) : Nat :=
  if s.bufSize ≤ s.inp + k then s.inp + k - s.bufSize else s.inp + k

variable {t : InputBuf}

theorem behind_add (hSize : t.bufSize = s.bufSize)
    (sc : EscState) {k m : Nat} (hFit : s.inp + k + m ≤ s.bufSize) :
    behind (place t sc (behind s k)) m = behind s (k + m) := by
  simp only [behind, place, hSize]
  split_ifs <;> omega

theorem place_self (hInp : s.inp < s.bufSize) : place s s.scanner (behind s 0) = s := by
  have hBehind : behind s 0 = s.inp := if_neg (by omega)
  rw [hBehind]
  rfl

variable {x : Symbol}

theorem arrive_frame (h : arrive s x = some t) :
    t.bufSize = s.bufSize := by
  rcases x with (_ | _ | _) | _
  · rw [arrive, Option.some.injEq] at h
    rw [h]
  · rw [arrive] at h
    split_ifs at h <;> (cases h; rfl)
  all_goals
    rw [arrive, ibufEof] at h
    split_ifs at h <;> (cases h; rfl)

variable {fuel : Nat}

/-- **Scanning a chunk** handles the values found in it one after the other. -/
theorem scan_eq (hWf : WellFormed s.scanner) {chunk : List UInt8}
    (hFuel : chunk.length ≤ fuel) (hInp : s.inp < s.bufSize)
    (hFit : s.inp + chunk.length ≤ s.bufSize) :
    scan ub fuel s chunk = (arriveAll s ((escape ub).outs s.scanner chunk)).map fun t =>
      place t ((escape ub).final s.scanner chunk) (behind s chunk.length) := by
  induction fuel generalizing s chunk with
  | zero =>
    obtain rfl : chunk = [] := List.length_eq_zero_iff.mp (by omega)
    simp [scan, place_self hInp]
  | succ fuel ih =>
    cases chunk with
    | nil => simp [scan, place_self hInp]
    | cons ch chunk =>
      rw [List.length_cons] at hFuel hFit
      -- the rest of the chunk, once `k` bytes are scanned
      have hGo {t : InputBuf} (hSize : t.bufSize = s.bufSize) {sc : EscState}
          (hSc : WellFormed sc) {k : Nat} {r : List UInt8} (hRest : r.length ≤ fuel)
          (hk : s.inp + k + r.length ≤ s.bufSize) :
          scan ub fuel (place t sc (behind s k)) r =
            (arriveAll t ((escape ub).outs sc r)).map fun t =>
              place t ((escape ub).final sc r) (behind s (k + r.length)) := by
        have hLt : (place t sc (behind s k)).inp < (place t sc (behind s k)).bufSize := by
          simp only [place, behind, hSize]
          split_ifs <;> omega
        have hLe : (place t sc (behind s k)).inp + r.length ≤
          (place t sc (behind s k)).bufSize := by
          simp only [place, behind, hSize]
          split_ifs <;> omega
        rw [ih (s := place t sc (behind s k)) hSc hRest hLt hLe, behind_add hSize sc hk]
        show (arriveAll (place t sc (behind s k)) ((escape ub).outs sc r)).map _ = _
        rw [arriveAll_place, Option.map_map]
        rfl
      have hLen : chunk.length ≤ fuel := by omega
      have hFits : s.inp + 1 + chunk.length ≤ s.bufSize := by omega
      -- one byte, and then the rest of the chunk
      have hByte {t : InputBuf} (hArrive : arriveAll s (escOut s.scanner ch) = some t)
          (hSize : t.bufSize = s.bufSize) :
          scan ub fuel (place t (escNext ub s.scanner ch) (behind s 1)) chunk =
            (arriveAll s ((escape ub).outs s.scanner (ch :: chunk))).map fun t =>
              place t ((escape ub).final s.scanner (ch :: chunk))
                (behind s (chunk.length + 1)) := by
        rw [hGo hSize (hWf.next ch) hLen hFits, Mealy.outs_cons, Nat.add_comm 1]
        show _ = (arriveAll s (escOut s.scanner ch ++ _)).map _
        rw [arriveAll_append, hArrive]
        rfl
      by_cases hSize : s.scanner.sizeMode = 0
      · by_cases hData : s.scanner.dataSize = 0
        · by_cases hEsc : s.scanner.esc = true
          · -- the code of an escape
            have hNext (hCh : ch ≠ 3) :
                escNext ub s.scanner ch = { s.scanner with esc := false } := by
              simp [escNext, hSize, hData, hEsc, hCh]
            rw [scan, if_neg (by simp [hSize]), if_neg (by simp [hData]), if_pos hEsc]
            have hState : { advanceInp s 1 with scanner := { s.scanner with esc := false } } =
                place s { s.scanner with esc := false } (behind s 1) := rfl
            rw [hState, scanEsc]
            -- an escape code that stands for a value or for none
            have hCode {x : Symbol} (hCh : ch ≠ 3) (hOut : escOut s.scanner ch = [x]) {t : InputBuf}
                (hArrive : arrive s x = some t) :
                scan ub fuel (place t { s.scanner with esc := false } (behind s 1)) chunk =
                  (arriveAll s ((escape ub).outs s.scanner (ch :: chunk))).map fun t =>
                    place t ((escape ub).final s.scanner (ch :: chunk))
                      (behind s (chunk.length + 1)) := by
              rw [← hNext hCh]
              exact hByte (by rw [hOut, arriveAll_cons, hArrive]; rfl) (arrive_frame hArrive)
            have hSame :
              (place s { s.scanner with esc := false } (behind s 1)).longMsg = s.longMsg ∧
                (place s { s.scanner with esc := false } (behind s 1)).messageCount =
                  s.messageCount := ⟨rfl, rfl⟩
            rw [hSame.1, hSame.2]
            split_ifs with h0 h1 hLong hOne h2 h3
            · exact hCode (x := .value (.byte ESC)) (by simp [h0])
                (by simp [escOut, hSize, hData, hEsc, h0]) rfl
            · exact hCode (x := .value .eom) (t := { s with longMsg := false }) (by simp [h1])
                (by simp [escOut, hSize, hData, hEsc, h1])
                (by rw [arrive, if_pos hLong, if_pos hOne])
            · have hOut : escOut s.scanner ch = [.value .eom] := by
                simp [escOut, hSize, hData, hEsc, h1]
              have hArrive : arrive s (.value .eom) = none := by
                rw [arrive, if_pos hLong, if_neg hOne]
              rw [Mealy.outs_cons]
              show none = (arriveAll s (escOut s.scanner ch ++ _)).map _
              rw [hOut, List.singleton_append, arriveAll_cons, hArrive]
              rfl
            · exact hCode (x := .value .eom) (by simp [h1])
                (by simp [escOut, hSize, hData, hEsc, h1]) (by rw [arrive, if_neg hLong])
            · rw [ibufEof_place]
              exact hCode (x := .value .eos) (by simp [h2])
                (by simp [escOut, hSize, hData, hEsc, h2]) rfl
            · have hBlock : escNext ub s.scanner ch = ⟨false, 1, 0⟩ := by
                simp [escNext, hSize, hData, hEsc, h3]
              have hStep := hByte (t := s) (by simp [escOut, hSize, hData, hEsc, h3]) rfl
              rw [hBlock] at hStep
              exact hStep
            · rw [ibufEof_place]
              exact hCode (x := .invalid ch) h3
                (by simp [escOut, hSize, hData, hEsc, h0, h1, h2, h3]) rfl
          · -- a plain byte, or the first byte of an escape
            rw [scan, if_neg (by simp [hSize]), if_neg (by simp [hData]), if_neg hEsc]
            split_ifs with hOpen
            · have hState : { advanceInp s 1 with scanner := { s.scanner with esc := true } } =
                  place s (escNext ub s.scanner ch) (behind s 1) := by
                simp [place, advanceInp, behind, escNext, hSize, hData, hEsc, hOpen]
              rw [hState]
              refine hByte (t := s) ?_ rfl
              simp [escOut, hSize, hData, hEsc, hOpen]
            · have hState : advanceInp s 1 = place s (escNext ub s.scanner ch) (behind s 1) := by
                simp [place, advanceInp, behind, escNext, hSize, hData, hEsc, hOpen]
              rw [hState]
              refine hByte (t := s) ?_ rfl
              simp [escOut, hSize, hData, hEsc, hOpen, arrive]
        · -- raw bytes of a block, as many of them as there are
          have hEsc := hWf.esc_eq_false (Or.inr hData)
          obtain ⟨k, hk⟩ : ∃ k, s.scanner = ⟨false, 0, k⟩ := ⟨_, by rw [← hEsc, ← hSize]⟩
          have hPos : 0 < k := by
            rw [hk] at hData
            exact Nat.pos_of_ne_zero hData
          rw [scan, if_neg (by simp [hSize]), if_pos (by omega), if_neg (by simp [hEsc])]
          simp only [hk]
          split_ifs with hMore
          · have hTake : ((ch :: chunk).take k).length = k := by
              rw [List.length_take, List.length_cons]
              omega
            have hDrop : ((ch :: chunk).drop k).length = chunk.length + 1 - k := by
              rw [List.length_drop, List.length_cons]
            have hRest := hGo (t := s) rfl wellFormed_init (k := k)
              (r := (ch :: chunk).drop k) (by omega) (by omega)
            have hLength : k + ((ch :: chunk).drop k).length = chunk.length + 1 := by omega
            obtain ⟨hFinal, hOuts⟩ := read_raw ub (le_of_eq hTake)
            rw [hTake, Nat.sub_self] at hFinal
            rw [hLength] at hRest
            have hSplit : ch :: chunk = (ch :: chunk).take k ++ (ch :: chunk).drop k :=
              (List.take_append_drop k _).symm
            have hAllOuts : (escape ub).outs ⟨false, 0, k⟩ (ch :: chunk) =
                ((ch :: chunk).take k).map (fun b => .value (.byte b)) ++
                  (escape ub).outs {} ((ch :: chunk).drop k) := by
              rw [← hOuts, hSplit, Mealy.outs_append, ← hSplit, hFinal]
            have hAllFinal : (escape ub).final ⟨false, 0, k⟩ (ch :: chunk) =
                (escape ub).final {} ((ch :: chunk).drop k) := by
              rw [hSplit, Mealy.final_append, ← hSplit, hFinal]
            rw [hAllOuts, hAllFinal, arriveAll_append, arriveAll_bytes]
            exact hRest
          · have hLe : (ch :: chunk).length ≤ k := by
              rw [List.length_cons]
              omega
            obtain ⟨hFinal, hOuts⟩ := read_raw ub hLe
            rw [hOuts, hFinal, arriveAll_bytes]
            rfl
      · -- a digit of a size
        have hEsc := hWf.esc_eq_false (Or.inl hSize)
        have hState :
            { advanceInp s 1 with
              scanner :=
                { s.scanner with
                  dataSize := s.scanner.dataSize ||| sizeBits ub ch s.scanner.sizeMode
                  sizeMode := if ch &&& 0x80 = 0 then 0 else s.scanner.sizeMode + 1 } } =
              place s (escNext ub s.scanner ch) (behind s 1) := by
          simp [place, advanceInp, behind, escNext, hSize]
        rw [scan, if_pos hSize, if_neg (by simp [hEsc]), hState]
        refine hByte (t := s) ?_ rfl
        simp [escOut, hSize]

/-! ## Counting messages -/

/-- The ends of messages among some values. -/
def eoms (syms : List Symbol) : Nat := syms.count (.value .eom)

@[simp] theorem eoms_nil : eoms [] = 0 := rfl

theorem eoms_append (xs ys : List Symbol) : eoms (xs ++ ys) = eoms xs + eoms ys :=
  List.count_append

theorem eoms_cons (x : Symbol) (xs : List Symbol) :
    eoms (x :: xs) = eoms xs + (if x = .value .eom then 1 else 0) := by
  rw [eoms, List.count_cons, eoms]
  simp

/-- Whether the first end of message comes when the stream has ended already: `ended`
at the start, or ended by an end of stream or an invalid code on the way. -/
def endThenEom : Bool → List Symbol → Bool
  | _, [] => false
  | ended, .value .eom :: _ => ended
  | ended, .value (.byte _) :: syms => endThenEom ended syms
  | _, _ :: syms => endThenEom true syms

/-- What the arrival of values does to the state: `e` ends of message were unread before. -/
structure Arrived (s t : InputBuf) (e : Nat) (syms : List Symbol) : Prop where
  frame   : t = { s with
              longMsg := t.longMsg
              messageCount := t.messageCount
              eof := t.eof
              handlingMsg := t.handlingMsg }
  count   : t.messageCount = e + eoms syms + t.longMsg.toNat + t.eof.toNat
  long    : t.longMsg = true → e + eoms syms = 0
  eof     : s.eof = true → t.eof = true
  le      : s.messageCount ≤ t.messageCount
  busy    : s.handlingMsg ≠ .idle → t.handlingMsg = s.handlingMsg
  idle    : s.handlingMsg = .idle →
              (t.handlingMsg = .idle ∧ t.messageCount = s.messageCount) ∨
                (t.handlingMsg = .triggered ∧ 0 < t.messageCount)

variable {e : Nat}

theorem ibufNewMessage_arrived (hCount : s.messageCount = e + 0 + s.eof.toNat)
    (hLong : s.longMsg = false) : Arrived s (ibufNewMessage s) e [.value .eom] where
  frame := rfl
  count := by
    simp only [ibufNewMessage, triggerMessage, eoms_cons, eoms_nil, hLong, hCount, if_true]
    simp
    omega
  long := by
    intro h
    exact absurd (hLong.symm.trans h) (by simp)
  eof := id
  le := Nat.le_succ _
  busy := fun h => if_neg h
  idle := fun h => Or.inr ⟨if_pos h, Nat.succ_pos _⟩

theorem ibufEof_eof (s : InputBuf) : (ibufEof s).eof = true := by
  unfold ibufEof
  split_ifs with h
  · exact h
  · rfl

theorem ibufEof_longMsg (s : InputBuf) : (ibufEof s).longMsg = s.longMsg := by
  unfold ibufEof
  split_ifs <;> rfl

theorem ibufEof_arrived (hx : x = .value .eos ∨ ∃ c, x = .invalid c)
    (hCount : s.messageCount = e + s.longMsg.toNat + s.eof.toNat)
    (hLong : s.longMsg = true → e = 0) : Arrived s (ibufEof s) e [x] := by
  have hEoms : eoms [x] = 0 := by
    rcases hx with rfl | ⟨c, rfl⟩ <;> rfl
  cases hEof : s.eof with
  | true =>
    have hSame : ibufEof s = s := if_pos hEof
    rw [hSame]
    exact ⟨rfl, by rw [hEoms]; exact hCount, by rwa [hEoms], id, le_refl _, fun _ => rfl,
      fun h => Or.inl ⟨h, rfl⟩⟩
  | false =>
    have hNew : ibufEof s = ibufNewMessage { s with eof := true } := if_neg (by simp [hEof])
    rw [hNew]
    refine ⟨rfl, ?_, by rwa [hEoms], fun _ => rfl, Nat.le_succ _, fun h => if_neg h,
      fun h => Or.inr ⟨if_pos h, Nat.succ_pos _⟩⟩
    rw [hEof] at hCount
    simp only [ibufNewMessage, triggerMessage, hEoms, hCount]
    simp

theorem Arrived.trans {t u : InputBuf} {xs ys : List Symbol}
    (h1 : Arrived s t e xs) (h2 : Arrived t u (e + eoms xs) ys) : Arrived s u e (xs ++ ys) where
  frame := by
    have := h2.frame
    rw [h1.frame] at this
    exact this
  count := by
    rw [eoms_append, ← Nat.add_assoc]
    exact h2.count
  long := by
    rw [eoms_append, ← Nat.add_assoc]
    exact h2.long
  eof := fun h => h2.eof (h1.eof h)
  le := h1.le.trans h2.le
  busy := fun h => by
    have hSame := h1.busy h
    rw [← hSame]
    exact h2.busy (by rwa [hSame])
  idle := fun h => by
    rcases h1.idle h with ⟨hIdle, hEq⟩ | ⟨hTrig, hPos⟩
    · rw [← hEq]
      exact h2.idle hIdle
    · refine Or.inr ⟨?_, lt_of_lt_of_le hPos h2.le⟩
      rw [h2.busy (by rw [hTrig]; simp), hTrig]

/-- **The counters after a chunk.** No assertion fails unless the message that is handled
ahead of its end is ended by an end of stream first. -/
theorem arriveAll_counts {syms : List Symbol}
    (hCount : s.messageCount = e + s.longMsg.toNat + s.eof.toNat)
    (hLong : s.longMsg = true → e = 0)
    (hSafe : s.longMsg = true → endThenEom s.eof syms = false) :
    ∃ t, arriveAll s syms = some t ∧ Arrived s t e syms := by
  induction syms generalizing s e with
  | nil =>
    refine ⟨s, rfl, rfl, hCount, fun h => hLong h, id, le_refl _, fun _ => rfl,
      fun h => Or.inl ⟨h, rfl⟩⟩
  | cons x syms ih =>
    -- the value `x` leads to `t`, from where the induction goes on
    have hGo {t : InputBuf} (hArrive : arrive s x = some t) (hFirst : Arrived s t e [x])
        (hRest : t.longMsg = true → endThenEom t.eof syms = false) :
        ∃ u, arriveAll s (x :: syms) = some u ∧ Arrived s u e (x :: syms) := by
      obtain ⟨u, hu, hArrived⟩ := ih hFirst.count hFirst.long hRest
      refine ⟨u, ?_, hFirst.trans hArrived⟩
      rw [arriveAll_cons, hArrive]
      exact hu
    rcases x with (b | _ | _) | c
    · -- a byte
      have hStay : Arrived s s e [.value (.byte b)] :=
        ⟨rfl, by simpa [eoms_cons] using hCount, by simpa [eoms_cons] using hLong, id, le_refl _,
          fun _ => rfl, fun h => Or.inl ⟨h, rfl⟩⟩
      exact hGo rfl hStay hSafe
    · -- an end of message
      cases hFlag : s.longMsg with
      | true =>
        have hEof : s.eof = false := hSafe hFlag
        obtain rfl := hLong hFlag
        rw [hFlag, hEof] at hCount
        have hOne : s.messageCount = 1 := hCount
        refine hGo (t := { s with longMsg := false }) ?_ ?_ (by simp)
        · rw [arrive, if_pos hFlag, if_pos hOne]
        · refine ⟨rfl, ?_, by simp, id, le_refl _, fun _ => rfl, fun h => Or.inl ⟨h, rfl⟩⟩
          simp [hOne, hEof, eoms_cons]
      | false =>
        rw [hFlag] at hCount
        refine hGo (if_neg (by simp [hFlag])) (ibufNewMessage_arrived hCount hFlag) ?_
        intro h
        exact absurd (hFlag.symm.trans h) (by simp)
    · -- an end of stream
      have hEnd := ibufEof_arrived (Or.inl rfl) hCount hLong
      refine hGo rfl hEnd ?_
      intro h
      rw [ibufEof_eof]
      exact hSafe (by rwa [ibufEof_longMsg] at h)
    · have hEnd := ibufEof_arrived (Or.inr ⟨c, rfl⟩) hCount hLong
      refine hGo rfl hEnd ?_
      intro h
      rw [ibufEof_eof]
      exact hSafe (by rwa [ibufEof_longMsg] at h)

/-! ## Where the unread bytes lie -/

/-- The unread bytes lie in the circle from `p` to `inp`, and one cell at least is free. -/
structure Layout (s : InputBuf) (p : Nat) (bytes : List UInt8) : Prop where
  size   : 2 ≤ s.bufSize
  inp_lt : s.inp < s.bufSize
  le     : p ≤ s.bufSize
  held   : Holds s.buf s.bufSize p bytes
  inp_eq : s.inp = (p + bytes.length) % s.bufSize
  room   : bytes.length < s.bufSize

namespace Layout

variable {p : Nat} {bytes : List UInt8}

/-- `inp`, without the remainder. -/
theorem inp_cases (h : Layout s p bytes) :
    (s.inp = p + bytes.length ∧ p + bytes.length < s.bufSize) ∨
      (s.inp + s.bufSize = p + bytes.length ∧ s.bufSize ≤ p + bytes.length) := by
  have hLe := h.le
  have hRoom := h.room
  rw [h.inp_eq]
  by_cases hLt : p + bytes.length < s.bufSize
  · exact Or.inl ⟨Nat.mod_eq_of_lt hLt, hLt⟩
  · refine Or.inr ⟨?_, by omega⟩
    have hSub : p + bytes.length = (p + bytes.length - s.bufSize) + s.bufSize := by omega
    rw [hSub, Nat.add_mod_right, Nat.mod_eq_of_lt (by omega)]

/-- The end of the buffer is its start. -/
theorem wrap (h : Layout s p bytes) : Layout s (if p = s.bufSize then 0 else p) bytes := by
  split_ifs with hEnd
  · have hZero : p % s.bufSize = 0 % s.bufSize := by rw [hEnd, Nat.mod_self, Nat.zero_mod]
    refine ⟨h.size, h.inp_lt, Nat.zero_le _, (holds_congr hZero).mp h.held, ?_, h.room⟩
    rw [h.inp_eq, ← Nat.mod_add_mod, hZero, Nat.mod_add_mod]
  · exact h

theorem drop (h : Layout s p bytes) {k : Nat} (hk : k ≤ bytes.length) (hLe : p + k ≤ s.bufSize) :
    Layout s (p + k) (bytes.drop k) where
  size := h.size
  inp_lt := h.inp_lt
  le := hLe
  held := by
    have hHeld := h.held
    rw [← List.take_append_drop k bytes, holds_append, List.length_take, min_eq_left hk] at hHeld
    exact hHeld.2
  inp_eq := by
    rw [h.inp_eq, List.length_drop]
    congr 1
    omega
  room := by
    have := h.room
    rw [List.length_drop]
    omega

theorem congr (h : Layout s p bytes) (hSize : t.bufSize = s.bufSize)
    (hBuf : t.buf = s.buf) (hInp : t.inp = s.inp) : Layout t p bytes := by
  refine ⟨?_, ?_, ?_, ?_, ?_, ?_⟩
  all_goals simp only [hSize, hBuf, hInp]
  · exact h.size
  · exact h.inp_lt
  · exact h.le
  · exact h.held
  · exact h.inp_eq
  · exact h.room

/-- The first unread byte. -/
theorem head {b : UInt8} (h : Layout s p (b :: bytes)) (hp : p < s.bufSize) : s.buf p = b := by
  have hHead := (holds_cons.mp h.held).1
  rwa [Nat.mod_eq_of_lt hp] at hHead

end Layout

/-- `cur` and `end`, moved from the end of the buffer to its start. -/
def atStart (s : InputBuf) : InputBuf :=
  if s.cur = s.bufSize then { s with cur := 0, endPos := 0 } else s

/-- The posted read has its place behind the unread bytes, and room for what it may bring. -/
def PendingFits (s : InputBuf) (bytes : List UInt8) : Prop :=
  ∀ p k, s.pending = some (p, k) →
    p = s.inp ∧ s.inp + k ≤ s.bufSize ∧ bytes.length + k < s.bufSize ∧ s.eof = false

section Free

variable {bytes : List UInt8}

/-- **The free space** lies behind the unread bytes and leaves one cell free. -/
theorem Layout.free (h : Layout s s.cur bytes) (hEof : s.eof = false)
    (hEnd : s.cur = s.bufSize → s.endPos = s.bufSize) :
    ∃ size, ibufFreeSize s = some (atStart s, size) ∧ s.inp + size ≤ s.bufSize ∧
      bytes.length + size < s.bufSize ∧ (size = 0 ↔ bytes.length + 1 = s.bufSize) := by
  have hWrap := h.wrap
  have hLt := h.inp_lt
  have hRoom := h.room
  have hSize := h.size
  have hLe := h.le
  by_cases hCur : s.cur = s.bufSize
  · rw [if_pos hCur] at hWrap
    have hInp := hWrap.inp_cases
    have hFree : ibufFreeSize s = some (atStart s, s.bufSize - s.inp - 1) := by
      have hNot : ¬ s.bufSize ≤ s.inp := by omega
      simp [ibufFreeSize, atStart, hEof, hCur, hEnd hCur, hNot]
    exact ⟨_, hFree, by omega, by omega, by omega⟩
  · rw [if_neg hCur] at hWrap
    have hInp := hWrap.inp_cases
    have hNot : ¬ s.bufSize ≤ s.inp := by omega
    by_cases hOrder : s.cur ≤ s.inp
    · have hFree : ibufFreeSize s =
          some (atStart s, s.bufSize - s.inp - (if s.cur = 0 then 1 else 0)) := by
        simp [ibufFreeSize, atStart, hEof, hCur, hNot, hOrder]
      refine ⟨_, hFree, ?_, ?_, ?_⟩
      all_goals split_ifs <;> omega
    · have hFree : ibufFreeSize s = some (atStart s, s.cur - s.inp - 1) := by
        simp [ibufFreeSize, atStart, hEof, hCur, hNot, hOrder]
      exact ⟨_, hFree, by omega, by omega, by omega⟩

/-- What `ibuf_trigger_read` does. -/
structure Triggered (s t : InputBuf) (bytes : List UInt8) : Prop where
  frame   : t = { s with cur := t.cur, endPos := t.endPos, pending := t.pending }
  layout  : Layout t t.cur bytes
  window  : (t.cur = s.cur ∧ t.endPos = s.endPos) ∨
              (s.cur = s.bufSize ∧ t.cur = 0 ∧ t.endPos = 0)
  pending : PendingFits t bytes
  asks    : s.eof = false → bytes.length + 1 < s.bufSize → t.pending ≠ none

theorem ibufTriggerRead_spec (h : Layout s s.cur bytes)
    (hEnd : s.cur = s.bufSize → s.endPos = s.bufSize) (hPending : PendingFits s bytes) :
    ∃ t, ibufTriggerRead s = some t ∧ Triggered s t bytes := by
  by_cases hEof : s.eof = true
  · refine ⟨s, ?_, rfl, h, Or.inl ⟨rfl, rfl⟩, hPending, ?_⟩
    · simp [ibufTriggerRead, ibufFreeSize, hEof]
    · intro hNot
      exact absurd (hEof.symm.trans hNot) (by simp)
  · simp only [Bool.not_eq_true] at hEof
    obtain ⟨size, hFree, hFit, hRoom, hZero⟩ := h.free hEof hEnd
    have hStart : (atStart s).bufSize = s.bufSize ∧ (atStart s).buf = s.buf ∧
        (atStart s).inp = s.inp ∧ (atStart s).pending = s.pending ∧ (atStart s).eof = s.eof ∧
        (atStart s) = { s with cur := (atStart s).cur, endPos := (atStart s).endPos } := by
      unfold atStart
      split_ifs <;> simp
    obtain ⟨hSize, hBuf, hInp, hPend, hEof', hFrame⟩ := hStart
    have hCur : (atStart s).cur = if s.cur = s.bufSize then 0 else s.cur := by
      unfold atStart
      split_ifs <;> rfl
    have hWindow : ((atStart s).cur = s.cur ∧ (atStart s).endPos = s.endPos) ∨
        (s.cur = s.bufSize ∧ (atStart s).cur = 0 ∧ (atStart s).endPos = 0) := by
      unfold atStart
      split_ifs with hc
      · exact Or.inr ⟨hc, rfl, rfl⟩
      · exact Or.inl ⟨rfl, rfl⟩
    have hLayout : Layout (atStart s) (atStart s).cur bytes := by
      rw [hCur]
      exact h.wrap.congr hSize hBuf hInp
    have hKeep : PendingFits (atStart s) bytes := by
      intro p k hp
      rw [hInp, hSize, hEof']
      exact hPending p k (by rwa [hPend] at hp)
    by_cases hNone : size = 0
    · refine ⟨atStart s, ?_, by rw [hPend]; exact hFrame, hLayout, hWindow, hKeep, ?_⟩
      · simp [ibufTriggerRead, hFree, hNone]
      · intro _ hSpace
        have := hZero.mp hNone
        omega
    · by_cases hBusy : s.pending.isSome
      · refine ⟨atStart s, ?_, by rw [hPend]; exact hFrame, hLayout, hWindow, hKeep, ?_⟩
        · have hNot : ¬ s.bufSize < s.inp + size := by omega
          simp [ibufTriggerRead, hFree, hNone, hSize, hInp, hPend, hNot, hBusy]
        · intro _ _ hNil
          rw [hPend] at hNil
          rw [hNil] at hBusy
          exact absurd hBusy (by simp)
      · refine ⟨{ atStart s with pending := some (s.inp, size) }, ?_, ?_,
          hLayout.congr rfl rfl rfl, hWindow, ?_, ?_⟩
        · have hNot : ¬ s.bufSize < s.inp + size := by omega
          simp [ibufTriggerRead, hFree, hNone, hSize, hInp, hPend, hNot, hBusy]
        · rw [hFrame]
        · intro p k hp
          cases hp
          show s.inp = (atStart s).inp ∧ (atStart s).inp + size ≤ (atStart s).bufSize ∧
            bytes.length + size < (atStart s).bufSize ∧ (atStart s).eof = false
          rw [hInp, hSize, hEof']
          exact ⟨rfl, hFit, hRoom, hEof⟩
        · intro _ _
          simp

end Free

/-! ## Reading -/

/-- The state `t` lends the handler the window `w` of what were the unread `bytes`; `rest`
lies behind it, unread by the reader, and `syms` is what the handler has still to read. -/
structure Lends (ub : UInt8 → Nat → Nat) (base t : InputBuf) (peeking : Bool)
    (bytes : List UInt8) (fin : EscState) (syms : List Symbol) (w rest : List UInt8) :
    Prop where
  frame  : t = { base with cur := t.cur, endPos := t.endPos, reader := t.reader }
  layout : Layout t t.cur (w ++ rest)
  window : t.endPos = t.cur + w.length ∧ t.cur + w.length ≤ t.bufSize
  wf     : WellFormed t.reader
  fin    : (escape ub).final t.reader rest = fin
  syms   : w.map (fun b => .value (.byte b)) ++ (escape ub).outs t.reader rest = syms
  le     : (w ++ rest).length ≤ bytes.length
  lt     : peeking = false → (w ++ rest).length < bytes.length

/-- What a call of `ibuf_get_more` leaves unread. -/
def leaves (peeking : Bool) (syms : List Symbol) : List Symbol :=
  if peeking then syms else syms.tail

section Get

variable {p : Nat} {b : UInt8} {bytes : List UInt8}

/-- A window of bytes that are read as they are. -/
theorem lends_window (h : Layout s p (b :: bytes)) {m : Nat} (hm : m ≤ bytes.length)
    (hFit : p + 1 + m ≤ s.bufSize) {r : EscState} (hWf : WellFormed r)
    (hRead : (escape ub).final s.reader (b :: bytes.take m) = r ∧
      (escape ub).outs s.reader (b :: bytes.take m) =
        (b :: bytes.take m).map fun b => .value (.byte b)) (peeking : Bool) :
    Lends ub s
      { s with cur := if peeking then p else p + 1, endPos := (p + 1 + m : Nat), reader := r }
      peeking (b :: bytes) ((escape ub).final s.reader (b :: bytes))
      (leaves peeking ((escape ub).outs s.reader (b :: bytes)))
      (if peeking then b :: bytes.take m else bytes.take m) (bytes.drop m) := by
  obtain ⟨hFinal, hOuts⟩ := hRead
  have hSplit : b :: bytes = (b :: bytes.take m) ++ bytes.drop m := by
    rw [List.cons_append, List.take_append_drop]
  have hLen : (bytes.take m).length = m := by
    rw [List.length_take]
    omega
  have hFinal' : (escape ub).final s.reader (b :: bytes) = (escape ub).final r (bytes.drop m) := by
    rw [hSplit, Mealy.final_append, hFinal]
  have hOuts' : (escape ub).outs s.reader (b :: bytes) =
      (b :: bytes.take m).map (fun b => .value (.byte b)) ++
        (escape ub).outs r (bytes.drop m) := by
    rw [hSplit, Mealy.outs_append, hFinal, hOuts]
  cases peeking with
  | true =>
    refine ⟨rfl, ?_, ?_, hWf, hFinal'.symm, hOuts'.symm, ?_, by simp⟩
    · show Layout _ p (b :: bytes.take m ++ bytes.drop m)
      rw [← hSplit]
      exact h.congr rfl rfl rfl
    · show ((p + 1 + m : Nat) : Int) = p + (b :: bytes.take m).length ∧
        p + (b :: bytes.take m).length ≤ s.bufSize
      rw [List.length_cons, hLen]
      omega
    · rw [hSplit]
      exact le_refl _
  | false =>
    have hLess : (bytes.take m ++ bytes.drop m).length < (b :: bytes).length := by
      rw [List.take_append_drop, List.length_cons]
      omega
    refine ⟨rfl, ?_, ?_, hWf, hFinal'.symm, ?_, le_of_lt hLess, fun _ => hLess⟩
    · show Layout _ (p + 1) (bytes.take m ++ bytes.drop m)
      rw [List.take_append_drop]
      exact (h.drop (k := 1) (by simp) (by omega)).congr rfl rfl rfl
    · show ((p + 1 + m : Nat) : Int) = ((p + 1 : Nat) : Int) + (bytes.take m).length ∧
        p + 1 + (bytes.take m).length ≤ s.bufSize
      rw [hLen]
      omega
    · rw [hOuts']
      rfl

/-- The code of an escape stays where it is while the handler only looks. -/
theorem lends_code (h : Layout s p (b :: bytes)) (hp : p < s.bufSize)
    (hWf : WellFormed s.reader) (hEsc : s.reader.esc = true) (hb : b ≠ 3)
    (hOut : escOut s.reader b = [x]) {base : InputBuf}
    (hBase : base.bufSize = s.bufSize ∧ base.buf = s.buf ∧ base.inp = s.inp ∧
      base.reader = s.reader) (peeking : Bool) :
    Lends ub base
      { base with
        cur := if peeking then p else p + 1
        endPos := (if peeking then p else p + 1 : Nat)
        reader := if peeking then s.reader else { s.reader with esc := false } }
      peeking (b :: bytes) ((escape ub).final s.reader (b :: bytes))
      (leaves peeking ((escape ub).outs s.reader (b :: bytes))) []
      (if peeking then b :: bytes else bytes) := by
  obtain ⟨hSize, hBuf, hInp, hReader⟩ := hBase
  have hNext : escNext ub s.reader b = { s.reader with esc := false } := by
    obtain ⟨h1, h2⟩ := hWf hEsc
    simp [escNext, h1, h2, hEsc, hb]
  cases peeking with
  | true =>
    refine ⟨rfl, h.congr hSize hBuf hInp, ⟨rfl, ?_⟩, hWf, rfl, rfl, le_refl _, by simp⟩
    show p ≤ base.bufSize
    omega
  | false =>
    refine ⟨rfl, ?_, ⟨rfl, ?_⟩, by simp [WellFormed], ?_, ?_, by simp, by simp⟩
    · exact (h.drop (k := 1) (by simp) (by omega)).congr hSize hBuf hInp
    · show p + 1 ≤ base.bufSize
      omega
    · rw [Mealy.final_cons]
      show _ = (escape ub).final (escNext ub s.reader b) bytes
      rw [hNext]
      rfl
    · rw [Mealy.outs_cons]
      show _ = leaves false (escOut s.reader b ++ (escape ub).outs (escNext ub s.reader b) bytes)
      rw [hNext, hOut]
      rfl

theorem plainEnd_spec (buf : Nat → UInt8) (k out : Nat) :
    ∃ j, plainEnd buf k out = out + j ∧ j ≤ k ∧ ∀ i < j, buf (out + i) ≠ ESC := by
  induction k generalizing out with
  | zero => exact ⟨0, rfl, le_refl _, by simp⟩
  | succ k ih =>
    rw [plainEnd]
    split_ifs with hEsc
    · exact ⟨0, rfl, Nat.zero_le _, by simp⟩
    · obtain ⟨j, hEq, hLe, hAll⟩ := ih (out + 1)
      refine ⟨j + 1, by rw [hEq]; omega, by omega, ?_⟩
      intro i hi
      cases i with
      | zero => exact hEsc
      | succ i =>
        have hCell : out + (i + 1) = out + 1 + i := by omega
        rw [hCell]
        exact hAll i (by omega)

/-- The reader at a byte: it is not at the end of the buffer, nor at `inp`. -/
theorem Layout.at_byte (h : Layout s p (b :: bytes)) :
    (if p = s.bufSize then 0 else p) < s.bufSize ∧ (if p = s.bufSize then 0 else p) ≠ s.inp ∧
      s.buf (if p = s.bufSize then 0 else p) = b ∧
      Layout s (if p = s.bufSize then 0 else p) (b :: bytes) := by
  have hWrap := h.wrap
  have hLt : (if p = s.bufSize then 0 else p) < s.bufSize := by
    have := h.size
    have := h.le
    split_ifs <;> omega
  refine ⟨hLt, ?_, hWrap.head hLt, hWrap⟩
  have hInp := hWrap.inp_cases
  have hRoom := h.room
  rw [List.length_cons] at hInp hRoom
  omega

/-- The reader with nothing left is at `inp`. -/
theorem Layout.at_end (h : Layout s p []) : (if p = s.bufSize then 0 else p) = s.inp := by
  have hInp := h.wrap.inp_cases
  have hLt := h.inp_lt
  simp only [List.length_nil, Nat.add_zero] at hInp
  rcases hInp with ⟨hEq, -⟩ | ⟨hEq, hLe⟩
  · exact hEq.symm
  · split_ifs at hEq hLe ⊢ with hp
    · omega
    · have := h.le
      omega

/-- A byte that gives no value moves the reader on. -/
theorem getMoreLoop_skip (h : Layout s p (b :: bytes)) (hWf : WellFormed s.reader)
    (hOut : escOut s.reader b = []) (peeking : Bool) (fuel : Nat) :
    getMoreLoop ub peeking (fuel + 1) s p =
      getMoreLoop ub peeking fuel { s with reader := escNext ub s.reader b }
        ((if p = s.bufSize then 0 else p) + 1) := by
  obtain ⟨hLt, hNe, hByte, -⟩ := h.at_byte
  rw [getMoreLoop]
  simp only [if_neg hNe, hByte]
  by_cases hSize : s.reader.sizeMode = 0
  · have hData : s.reader.dataSize = 0 := by
      by_contra hData
      have hPos := Nat.pos_of_ne_zero hData
      simp [escOut, hSize, hPos] at hOut
    by_cases hEsc : s.reader.esc = true
    · have hb : b = 3 := by
        by_contra hb
        simp only [escOut, hSize, hData, hEsc, hb] at hOut
        split_ifs at hOut
        all_goals simp_all
      simp [escNext, hSize, hData, hEsc, hb]
    · have hb : b = ESC := by
        by_contra hb
        simp [escOut, hSize, hData, hEsc, hb] at hOut
      simp [escNext, hSize, hData, hEsc, hb]
  · have hEsc := hWf.esc_eq_false (Or.inl hSize)
    simp [escNext, hSize, hEsc]

/-- The reader moved on by one byte. -/
theorem Layout.next (h : Layout s p (b :: bytes)) (r : EscState) :
    Layout { s with reader := r } ((if p = s.bufSize then 0 else p) + 1) bytes := by
  obtain ⟨hLt, -, -, hWrap⟩ := h.at_byte
  exact (hWrap.drop (k := 1) (by simp) (by omega)).congr rfl rfl rfl

/-- **Nothing to read.** The reader takes in all the bytes and finds no value. -/
theorem getMoreLoop_noData (h : Layout s p bytes) (hWf : WellFormed s.reader)
    (hFuel : bytes.length < fuel) (hOuts : (escape ub).outs s.reader bytes = []) (peeking : Bool) :
    getMoreLoop ub peeking fuel s p =
      noData { s with reader := (escape ub).final s.reader bytes } peeking s.inp := by
  induction bytes generalizing s p fuel with
  | nil =>
    obtain ⟨fuel, rfl⟩ := Nat.exists_eq_succ_of_ne_zero (by omega : fuel ≠ 0)
    rw [getMoreLoop]
    simp only [h.at_end, if_true]
    rfl
  | cons b bytes ih =>
    rw [List.length_cons] at hFuel
    obtain ⟨fuel, rfl⟩ := Nat.exists_eq_succ_of_ne_zero (by omega : fuel ≠ 0)
    rw [Mealy.outs_cons] at hOuts
    obtain ⟨hOut, hRest⟩ := List.append_eq_nil_iff.mp hOuts
    rw [getMoreLoop_skip h hWf hOut]
    exact ih (s := { s with reader := escNext ub s.reader b }) (h.next _) (hWf.next b) (by omega)
      hRest

/-- The handler has read the end of a message. -/
def afterRead (s : InputBuf) (peeking : Bool) (v : Value) : InputBuf :=
  if peeking = false ∧ v = .eom then readEom s else s

/-- Raw bytes of a block are lent up to the end of the block, of the data or of the buffer. -/
theorem getMoreLoop_raw (h : Layout s p (b :: bytes)) (hWf : WellFormed s.reader)
    (hSize : s.reader.sizeMode = 0) (hData : s.reader.dataSize ≠ 0) (peeking : Bool)
    (fuel : Nat) :
    ∃ t w rest, getMoreLoop ub peeking (fuel + 1) s p = finish t peeking (.byte b) ∧
      Lends ub s t peeking (b :: bytes) ((escape ub).final s.reader (b :: bytes))
        (leaves peeking ((escape ub).outs s.reader (b :: bytes))) w rest := by
  obtain ⟨hLt, hNe, hByte, hWrap⟩ := h.at_byte
  have hEsc := hWf.esc_eq_false (Or.inr hData)
  have hReader : s.reader = ⟨false, 0, s.reader.dataSize⟩ := by rw [← hEsc, ← hSize]
  rw [getMoreLoop]
  generalize (if p = s.bufSize then 0 else p) = q at hLt hNe hByte hWrap
  simp only [if_neg hNe, hByte]
  rw [if_neg (by simp [hSize]), if_pos (by omega), if_neg (by simp [hEsc])]
  -- `m` more bytes are lent with the first one
  obtain ⟨m, hm⟩ :
    ∃ m, (if (if q + 1 ≤ s.inp then s.inp else s.bufSize) - q < s.reader.dataSize then
      (if q + 1 ≤ s.inp then s.inp else s.bufSize) - q else s.reader.dataSize) = m + 1 := by
    refine Nat.exists_eq_succ_of_ne_zero ?_
    split_ifs <;> omega
  have hInp := hWrap.inp_cases
  rw [List.length_cons] at hInp
  have hLe : m ≤ bytes.length := by
    split_ifs at hm <;> omega
  have hFit : q + 1 + m ≤ s.bufSize := by
    have := h.inp_lt
    split_ifs at hm <;> omega
  have hLess : m < s.reader.dataSize := by
    split_ifs at hm <;> omega
  have hLen : (b :: bytes.take m).length = m + 1 := by
    rw [List.length_cons, List.length_take, min_eq_left hLe]
  have hRead := read_raw ub (k := s.reader.dataSize) (d := b :: bytes.take m) (by omega)
  rw [hLen, ← hReader] at hRead
  have hEnd : q + (m + 1) = q + 1 + m := by omega
  rw [hm, hEnd]
  refine ⟨_, _, _, rfl, lends_window hWrap hLe hFit ?_ ?_ peeking⟩
  · intro hNot
    exact absurd (hEsc.symm.trans hNot) (by simp)
  · rw [hEsc, hSize]
    exact hRead

/-- A byte that needs no escape is lent with the ones behind it. -/
theorem getMoreLoop_plain (h : Layout s p (b :: bytes)) (hReader : s.reader = {})
    (hb : b ≠ ESC) (peeking : Bool) (fuel : Nat) :
    ∃ t w rest, getMoreLoop ub peeking (fuel + 1) s p = finish t peeking (.byte b) ∧
      Lends ub s t peeking (b :: bytes) ((escape ub).final s.reader (b :: bytes))
        (leaves peeking ((escape ub).outs s.reader (b :: bytes))) w rest := by
  obtain ⟨hLt, hNe, hByte, hWrap⟩ := h.at_byte
  rw [getMoreLoop]
  generalize (if p = s.bufSize then 0 else p) = q at hLt hNe hByte hWrap
  simp only [if_neg hNe, hByte]
  rw [if_neg (by simp [hReader]), if_neg (by simp [hReader]), if_neg (by simp [hReader]), if_pos hb]
  obtain ⟨m, hEnd, hMax, hPlain⟩ := plainEnd_spec s.buf
    ((if q + 1 ≤ s.inp then s.inp else s.bufSize) - (q + 1)) (q + 1)
  have hInp := hWrap.inp_cases
  rw [List.length_cons] at hInp
  have hLe : m ≤ bytes.length := by
    split_ifs at hMax <;> omega
  have hFit : q + 1 + m ≤ s.bufSize := by
    have := h.inp_lt
    split_ifs at hMax <;> omega
  have hNoEsc : ESC ∉ b :: bytes.take m := by
    intro hMem
    rcases List.mem_cons.mp hMem with hHead | hTail
    · exact hb hHead.symm
    · obtain ⟨i, hi, hAt⟩ := List.mem_iff_getElem.mp hTail
      rw [List.length_take] at hi
      refine hPlain i (by omega) ?_
      have hCell := (holds_cons.mp hWrap.held).2 i (by omega)
      rw [Nat.mod_eq_of_lt (by omega)] at hCell
      rw [hCell, ← hAt, List.getElem_take]
  have hRead := read_plain ub hNoEsc
  rw [← hReader] at hRead
  have hNot : ¬ q + 1 + m < (if peeking then q else q + 1) := by
    split_ifs <;> omega
  rw [hEnd, if_neg hNot]
  refine ⟨_, _, _, rfl, lends_window hWrap hLe hFit ?_ hRead peeking⟩
  rw [hReader]
  exact wellFormed_init

theorem afterRead_of_ne {v : Value} (hv : v ≠ .eom) (s : InputBuf) (peeking : Bool) :
    afterRead s peeking v = s := if_neg fun h => hv h.2

theorem afterRead_frame (s : InputBuf) (peeking : Bool) (v : Value) :
    afterRead s peeking v =
      { s with
        messageCount := (afterRead s peeking v).messageCount
        handlingMsg := (afterRead s peeking v).handlingMsg } := by
  unfold afterRead readEom triggerMessage
  dsimp only
  split_ifs <;> rfl

theorem afterRead_reader (s : InputBuf) (r : EscState) (peeking : Bool) (v : Value) :
    afterRead { s with reader := r } peeking v = { afterRead s peeking v with reader := r } := by
  unfold afterRead readEom triggerMessage
  dsimp only
  split_ifs <;> rfl

theorem afterRead_layout (s : InputBuf) (peeking : Bool) (v : Value) :
    (afterRead s peeking v).bufSize = s.bufSize ∧ (afterRead s peeking v).buf = s.buf ∧
      (afterRead s peeking v).inp = s.inp ∧ (afterRead s peeking v).reader = s.reader := by
  rw [afterRead_frame]
  exact ⟨rfl, rfl, rfl, rfl⟩

/-- The code of an escape gives a value or an end. -/
theorem getMoreLoop_code (h : Layout s p (b :: bytes)) (hWf : WellFormed s.reader)
    (hEsc : s.reader.esc = true) (hb : b ≠ 3) {v : Value} (hOut : escOut s.reader b = [.value v])
    (peeking : Bool) (fuel : Nat) :
    ∃ t w rest, getMoreLoop ub peeking (fuel + 1) s p = finish t peeking v ∧
      Lends ub (afterRead s peeking v) t peeking (b :: bytes)
        ((escape ub).final s.reader (b :: bytes))
        (leaves peeking ((escape ub).outs s.reader (b :: bytes))) w rest := by
  obtain ⟨hLt, hNe, hByte, hWrap⟩ := h.at_byte
  obtain ⟨hSize, hData⟩ := hWf hEsc
  have hLends : Lends ub _ _ _ _ _ _ _ _ :=
    lends_code hWrap hLt hWf hEsc hb hOut (afterRead_layout s peeking v) peeking
  refine ⟨_, _, _, ?_, hLends⟩
  rw [getMoreLoop]
  generalize (if p = s.bufSize then 0 else p) = q at hLt hNe hByte hWrap ⊢
  simp only [if_neg hNe, hByte]
  rw [if_neg (by simp [hSize]), if_neg (by simp [hData]), if_pos hEsc]
  simp only [escOut, hSize, hData, hEsc, ne_eq, not_true_eq_false, if_false, lt_irrefl,
    if_true, if_neg hb] at hOut
  split_ifs at hOut with h0 h1 h2
  · obtain rfl : .byte ESC = v := by simpa using hOut
    rw [if_pos h0]
    cases peeking <;> rfl
  · obtain rfl : .eom = v := by simpa using hOut
    rw [if_neg h0, if_pos h1]
    cases peeking with
    | true => rfl
    | false =>
      have hRead : afterRead s false .eom = readEom s := if_pos ⟨rfl, rfl⟩
      have hSame := (afterRead_layout s false .eom).2.2.2
      rw [hRead] at hSame ⊢
      simp [afterEsc, hSame]
  · obtain rfl : .eos = v := by simpa using hOut
    rw [if_neg h0, if_neg h1, if_pos h2]
    cases peeking <;> rfl
  · exact absurd hOut (by simp)

/-- A byte gives one value at most. -/
theorem escOut_singleton (h : escOut st b ≠ []) : ∃ x, escOut st b = [x] := by
  unfold escOut at h ⊢
  split_ifs at h ⊢
  all_goals first | exact absurd rfl h | exact ⟨_, rfl⟩

/-- **The first value** of what is unread is given, with a window behind it. -/
theorem getMoreLoop_value (h : Layout s p bytes) (hWf : WellFormed s.reader)
    (hFuel : bytes.length < fuel) {v : Value} {syms : List Symbol}
    (hOuts : (escape ub).outs s.reader bytes = .value v :: syms) (peeking : Bool) :
    ∃ t w rest, getMoreLoop ub peeking fuel s p = finish t peeking v ∧
      Lends ub (afterRead s peeking v) t peeking bytes ((escape ub).final s.reader bytes)
        (leaves peeking (.value v :: syms)) w rest := by
  induction bytes generalizing s p fuel with
  | nil => exact absurd hOuts (by simp)
  | cons b bytes ih =>
    rw [List.length_cons] at hFuel
    obtain ⟨fuel, rfl⟩ := Nat.exists_eq_succ_of_ne_zero (by omega : fuel ≠ 0)
    have hFirst : escOut s.reader b ++ (escape ub).outs (escNext ub s.reader b) bytes =
      .value v :: syms := hOuts
    by_cases hSkip : escOut s.reader b = []
    · -- the byte gives no value
      rw [hSkip, List.nil_append] at hFirst
      rw [getMoreLoop_skip h hWf hSkip]
      have hLess : bytes.length < fuel := by omega
      obtain ⟨t, w, rest, hLoop, hLends⟩ := ih (s := { s with reader := escNext ub s.reader b })
        (h.next _) (hWf.next b) hLess hFirst
      refine ⟨t, w, rest, hLoop, ⟨?_, hLends.layout, hLends.window, hLends.wf, hLends.fin,
        hLends.syms, hLends.le.trans (Nat.le_succ _), fun hRead => (hLends.lt hRead).trans ?_⟩⟩
      · rw [hLends.frame, afterRead_reader]
      · exact Nat.lt_succ_self _
    · rw [← hOuts]
      by_cases hSize : s.reader.sizeMode = 0
      · by_cases hData : s.reader.dataSize = 0
        · by_cases hEsc : s.reader.esc = true
          · have hb : b ≠ 3 := by
              rintro rfl
              exact hSkip (by simp [escOut, hSize, hData, hEsc])
            obtain ⟨x, hx⟩ := escOut_singleton hSkip
            have hOut : escOut s.reader b = [.value v] := by
              rw [hx] at hFirst ⊢
              exact congrArg (fun y => [y]) (List.cons.inj hFirst).1
            exact getMoreLoop_code h hWf hEsc hb hOut peeking fuel
          · have hReader : s.reader = {} := by
              cases hState : s.reader
              simp_all
            have hb : b ≠ ESC := by
              rintro rfl
              exact hSkip (by simp [escOut, hReader])
            have hByte : v = .byte b := by
              simp [escOut, hReader, hb] at hFirst
              exact hFirst.1.symm
            rw [hByte, afterRead_of_ne (by simp)]
            exact getMoreLoop_plain h hReader hb peeking fuel
        · have hPos := Nat.pos_of_ne_zero hData
          have hByte : v = .byte b := by
            simp [escOut, hSize, hPos] at hFirst
            exact hFirst.1.symm
          rw [hByte, afterRead_of_ne (by simp)]
          exact getMoreLoop_raw h hWf hSize hData peeking fuel
      · exact absurd (by simp [escOut, hSize]) hSkip

end Get

end TcfAgent.Ibuf
