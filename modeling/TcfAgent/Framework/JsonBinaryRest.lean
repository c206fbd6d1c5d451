import TcfAgent.Framework.JsonBinary

/-!
# Reading binary data to their end

Whatever stands in the text, calls of `json_read_binary_data` come to an end: every call that gives
something takes as much of the text, or of the number of bytes that were announced.

Main results

* `readData_progress` — a call gives data, or raises an exception
* `sound_start`       — what a reader starts with
-/

namespace TcfAgent.JsonBuffers

open TcfAgent.Lib TcfAgent.JsonText

/-! ## Groups of BASE64 -/

section

variable {bufSize fuel len max : Nat} {buf text data text' : Text} {s s' : ReadState}

theorem char2int_some {c : Option UInt8} {n : Nat} (h : char2int c = some n) : ∃ b, c = some b := by
  rcases c with - | b
  · cases h
  · exact ⟨b, rfl⟩

theorem length_of_head {c : UInt8} (h : text.head? = some c) :
    text = c :: text.tail ∧ text.length = text.tail.length + 1 := by
  obtain ⟨rest, rfl⟩ := List.head?_eq_some_iff.1 h
  exact ⟨rfl, rfl⟩

/-- What the loop stores it takes from the text. -/
theorem readGroups_progress (h : readGroups bufSize fuel buf text = .ok (data, text')) :
    data.length + text'.length ≤ buf.length + text.length ∧
      (buf.length ≤ bufSize → data.length ≤ bufSize) := by
  induction fuel generalizing buf text with
  | zero =>
    cases h
    exact ⟨Nat.le_refl _, id⟩
  | succ fuel ih =>
    rw [readGroups] at h
    split at h
    · cases h
      exact ⟨Nat.le_refl _, id⟩
    · rename_i hRoom
      split at h
      · cases h
        exact ⟨Nat.le_refl _, id⟩
      · rename_i n0 h0
        obtain ⟨b0, hb0⟩ := char2int_some h0
        have hLength0 := (length_of_head hb0).2
        split at h
        · cases h
        · rename_i n1 h1
          obtain ⟨b1, hb1⟩ := char2int_some h1
          have hLength1 := (length_of_head hb1).2
          split at h
          · rename_i hEqual
            cases h
            have hLength2 := (length_of_head hEqual).2
            simp only [List.length_append, List.length_cons, List.length_nil, List.length_drop]
            exact ⟨by omega, fun _ => by omega⟩
          · split at h
            · cases h
            · rename_i n2 h2
              obtain ⟨b2, hb2⟩ := char2int_some h2
              have hLength2 := (length_of_head hb2).2
              split at h
              · cases h
                simp only [List.length_append, List.length_cons, List.length_nil, List.length_drop]
                exact ⟨by omega, fun _ => by omega⟩
              · split at h
                · cases h
                · obtain ⟨hTaken, hFits⟩ := ih h
                  simp only [List.length_append, List.length_cons, List.length_nil,
                    List.length_drop] at hTaken hFits
                  exact ⟨by omega, fun _ => hFits (by omega)⟩

theorem readGroups_ne_fault : readGroups bufSize fuel buf text ≠ .error .fault := by
  intro h
  induction fuel generalizing buf text with
  | zero => cases h
  | succ fuel ih =>
    rw [readGroups] at h
    split at h
    · cases h
    · split at h
      · cases h
      · split at h
        · cases h
        · split at h
          · cases h
          · split at h
            · cases h
            · split at h
              · cases h
              · split at h
                · cases h
                · exact ih h

theorem readBase64_progress (h : readBase64 len text = .ok (data, text')) :
    data.length + text'.length ≤ text.length ∧ data.length ≤ len := by
  unfold readBase64 at h
  split at h
  · cases h
  · obtain ⟨hTaken, hFits⟩ := readGroups_progress h
    exact ⟨by simpa using hTaken, hFits (Nat.zero_le _)⟩

theorem readBase64_ne_fault (hLen : 3 ≤ len) : readBase64 len text ≠ .error .fault := by
  rw [readBase64, if_neg (by omega)]
  exact readGroups_ne_fault

/-! ## Calls -/

/-- What a reader keeps: `rem` is 0 for data behind their size, which are not more, and at most 3
for BASE64. -/
def Sound (s : ReadState) : Prop :=
  match s.encoding with
  | .binary => s.buf = [] ∧ s.sizeDone ≤ s.sizeStart ∧ s.sizeStart < 2 ^ 64
  | .base64 => s.buf.length ≤ 3

/-- What is left to read. -/
def ReadState.left (s : ReadState) : Nat :=
  match s.encoding with
  | .binary => s.sizeStart - s.sizeDone
  | .base64 => s.buf.length + s.text.length

theorem readLoop_progress (hBuf : s.buf.length ≤ 3) (h : readLoop fuel len s = .ok (data, s')) :
    data.length + (s'.buf.length + s'.text.length) ≤ s.buf.length + s.text.length ∧
      s'.buf.length ≤ 3 ∧ s'.encoding = s.encoding := by
  induction fuel generalizing len s data s' with
  | zero =>
    cases h
    exact ⟨by simp, hBuf, rfl⟩
  | succ fuel ih =>
    rw [readLoop] at h
    split at h
    · cases h
      exact ⟨by simp, hBuf, rfl⟩
    · split at h
      · cases h
      · split at h
        · cases h
          simp only [List.length_take, List.length_drop]
          exact ⟨by omega, by omega, trivial⟩
        · dsimp only at h
          split at h
          -- whole groups go to the reader, and the loop goes on behind them
          · rcases hGroups : readBase64 (len - s.buf.length) s.text with e | ⟨got, rest⟩
            · rw [hGroups] at h
              cases h
            · rw [hGroups] at h
              obtain ⟨hTaken, -⟩ := readBase64_progress hGroups
              change (if got = [] then _ else _) = _ at h
              split at h
              · cases h
                simp only [List.length_nil]
                exact ⟨by omega, by omega, trivial⟩
              · rcases hMore : readLoop fuel (len - s.buf.length - got.length)
                    { s with buf := [], text := rest } with e | ⟨more, t⟩
                · rw [hMore] at h
                  cases h
                · rw [hMore] at h
                  cases h
                  obtain ⟨hRest, hKept, hSame⟩ := ih (by simp) hMore
                  simp only [List.length_nil, List.length_append] at hRest ⊢
                  exact ⟨by omega, hKept, hSame⟩
          -- a last group goes to the small buffer
          · rcases hGroups : readBase64 3 s.text with e | ⟨got, rest⟩
            · rw [hGroups] at h
              cases h
            · rw [hGroups] at h
              obtain ⟨hTaken, hThree⟩ := readBase64_progress hGroups
              change (if got = [] then _ else _) = _ at h
              split at h
              · rename_i hNil
                cases h
                subst hNil
                simp only [List.length_nil] at hTaken ⊢
                exact ⟨by omega, by omega, trivial⟩
              · rcases hMore : readLoop fuel (len - s.buf.length)
                    { s with buf := got, text := rest } with e | ⟨more, t⟩
                · rw [hMore] at h
                  cases h
                · rw [hMore] at h
                  cases h
                  obtain ⟨hRest, hKept, hSame⟩ := ih hThree hMore
                  simp only [List.length_append] at hRest ⊢
                  exact ⟨by omega, hKept, hSame⟩

theorem readLoop_ne_fault (hBuf : s.buf.length ≤ 3) : readLoop fuel len s ≠ .error .fault := by
  intro h
  induction fuel generalizing len s with
  | zero => cases h
  | succ fuel ih =>
    rw [readLoop] at h
    split at h
    · cases h
    · rw [if_neg (by omega)] at h
      split at h
      · cases h
      · dsimp only at h
        split at h
        · rename_i hLen
          rcases hGroups : readBase64 (len - s.buf.length) s.text with e | ⟨got, rest⟩
          · rw [hGroups] at h
            cases h
            exact readBase64_ne_fault hLen hGroups
          · rw [hGroups] at h
            change (if got = [] then _ else _) = _ at h
            split at h
            · cases h
            · rcases hMore : readLoop fuel (len - s.buf.length - got.length)
                  { s with buf := [], text := rest } with e | ⟨more, t⟩
              · rw [hMore] at h
                cases h
                exact ih (by simp) hMore
              · rw [hMore] at h
                cases h
        · rcases hGroups : readBase64 3 s.text with e | ⟨got, rest⟩
          · rw [hGroups] at h
            cases h
            exact readBase64_ne_fault (Nat.le_refl _) hGroups
          · rw [hGroups] at h
            change (if got = [] then _ else _) = _ at h
            split at h
            · cases h
            · rcases hMore : readLoop fuel (len - s.buf.length)
                  { s with buf := got, text := rest } with e | ⟨more, t⟩
              · rw [hMore] at h
                cases h
                exact ih (readBase64_progress hGroups).2 hMore
              · rw [hMore] at h
                cases h

theorem length_readRaw (len : Nat) (text : Text) : (readRaw len text).1.length = len := by
  induction len generalizing text with
  | zero => rfl
  | succ len ih => exact congrArg (· + 1) (ih text.tail)

/-- A call gives data, which it takes of what is left, or raises an exception. -/
theorem readData_progress (hSound : Sound s) (hMax : 0 < max) :
    (∃ f, jsonReadBinaryData max s = .error (.raise f)) ∨
      ∃ data s', jsonReadBinaryData max s = .ok (data, s') ∧ Sound s' ∧
        data.length + s'.left ≤ s.left ∧
        (data = [] → s'.encoding = .binary → s'.sizeStart = s'.sizeDone) := by
  rcases s with ⟨encoding, sizeStart, sizeDone, buf, text⟩
  rcases encoding with - | -
  · right
    obtain ⟨hBuf, hDone, hStart⟩ := hSound
    have hBuf : buf = [] := hBuf
    have hDone : sizeDone ≤ sizeStart := hDone
    have hStart : sizeStart < 2 ^ 64 := hStart
    have hLeft : u64 (sizeStart + (2 ^ 64 - sizeDone)) = sizeStart - sizeDone := by
      unfold u64
      omega
    have hLength := length_readRaw (min max (sizeStart - sizeDone)) text
    have hNext : u64 (sizeDone + min max (sizeStart - sizeDone)) =
        sizeDone + min max (sizeStart - sizeDone) := by
      unfold u64
      omega
    refine ⟨_, _, rfl, ⟨hBuf, ?_, hStart⟩, ?_, ?_⟩
    · show u64 (sizeDone + (readRaw (min max (u64 _)) text).1.length) ≤ sizeStart
      rw [hLeft, hLength, hNext]
      omega
    · show (readRaw (min max (u64 _)) text).1.length + (sizeStart - u64 _) ≤ sizeStart - sizeDone
      rw [hLeft, hLength, hNext]
      omega
    · intro hNil _
      have hNone := congrArg List.length hNil
      simp only [hLeft, hLength, List.length_nil] at hNone
      show sizeStart = u64 (sizeDone + (readRaw (min max (u64 _)) text).1.length)
      rw [hLeft, hLength, hNext]
      omega
  · have hBuf : buf.length ≤ 3 := hSound
    rcases hLoop : readLoop (2 * max + 1) max ⟨.base64, sizeStart, sizeDone, buf, text⟩ with
      (f | -) | ⟨data, s'⟩
    · exact .inl ⟨f, hLoop⟩
    · exact absurd hLoop (readLoop_ne_fault hBuf)
    · right
      obtain ⟨hTaken, hKept, hSame⟩ := readLoop_progress hBuf hLoop
      have hSame : s'.encoding = .base64 := hSame
      refine ⟨data, s', hLoop, ?_, ?_, ?_⟩
      · rw [Sound, hSame]
        exact hKept
      · simp only [ReadState.left, hSame]
        exact hTaken
      · intro _ hBinary
        rw [hSame] at hBinary
        cases hBinary

/-! ## All of the data -/

/-- Calls of `json_read_binary_data` up to the one that gives nothing. -/
def readPieces (max : Nat) : (fuel : Nat) → ReadState → Result (List Text × ReadState)
  | 0, s => .ok ([], s)
  | fuel + 1, s => do
    let (data, s) ← jsonReadBinaryData max s
    if data = [] then return ([], s)
    else do
      let (pieces, s) ← readPieces max fuel s
      return (data :: pieces, s)

/-- The data that are left, and what follows them. -/
def readRest (max : Nat) (s : ReadState) : Result (List Text × Text) := do
  let (pieces, s) ← readPieces max (s.left + 1) s
  return (pieces, ← jsonReadBinaryEnd s)

theorem u64_lt (n : Nat) : u64 n < 2 ^ 64 := Nat.mod_lt _ (by decide)

theorem readDigitsU_lt {res : Nat} (h : res < 2 ^ 64) : (readDigitsU res text).1 < 2 ^ 64 := by
  induction text generalizing res with
  | nil => exact h
  | cons c text ih =>
    rw [readDigitsU]
    split
    · exact ih (u64_lt _)
    · exact h

theorem readUint64_lt {n : Nat} (h : jsonReadUint64 text = .ok (n, text')) : n < 2 ^ 64 := by
  unfold jsonReadUint64 at h
  split at h
  · rename_i neg ch rest hSign
    split at h
    · have hNumber := congrArg Prod.fst (Except.ok.inj h)
      have hLess : (readDigitsU (ch.toNat - 48) rest).1 < 2 ^ 64 := readDigitsU_lt (by
        have hByte := ch.toNat_lt
        omega)
      dsimp only at hNumber
      rw [← hNumber]
      split
      · exact u64_lt _
      · exact hLess
    · cases h
  · cases h

theorem sound_start (h : jsonReadBinaryStart text = .ok s) : Sound s := by
  unfold jsonReadBinaryStart at h
  split at h
  · rename_i rest hText
    rcases hUlong : jsonReadUlong rest with e | ⟨size, rest'⟩
    · rw [hUlong] at h
      cases h
    · rw [hUlong] at h
      rcases hTest : testChar 41 rest' with e | rest''
      · simp [hTest, bind, Except.bind] at h
      · simp [hTest, bind, Except.bind, pure, Except.pure] at h
        subst h
        exact ⟨rfl, Nat.zero_le _, readUint64_lt hUlong⟩
  · cases h
    exact Nat.zero_le 3
  · rename_i rest hText
    rcases hNull : readNull rest with e | rest'
    · simp [hNull, bind, Except.bind] at h
    · simp [hNull, bind, Except.bind, pure, Except.pure] at h
      subst h
      exact ⟨rfl, Nat.le_refl _, Nat.two_pow_pos 64⟩
  · cases h

end

end TcfAgent.JsonBuffers
