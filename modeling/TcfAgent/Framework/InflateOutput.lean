import TcfAgent.Framework.InflateSafety

/-!
# What is written does not depend on what was there

Reading takes no notice of the output (`Blind`). What is written is copied from before the position
where it is written, so that two outputs that are the same up to there stay so (`Alike`), but for
copies of distance 0: these take over what was in the output (`Distant`).

Main result

* `decompress_determined` — decompressions to different buffers of one size end in the same way
-/

namespace TcfAgent.Inflate

open TcfAgent.Lib

/-! ## Programs that only read -/

/-- The state with another output. -/
def State.onto (s : State) (o : List UInt8) (n : Nat) : State := { s with out := o, outPos := n }

/-- The output is neither looked at nor changed. -/
def Blind {α : Type} (p : Inf α) : Prop :=
  ∀ s o n, p (s.onto o n) = (p s).map fun r => (r.1, r.2.onto o n)

section

variable {α β : Type} {p p' : Inf α} {f : α → Inf β} {src : List UInt8}

theorem blind_pure {a : α} : Blind (pure a : Inf α) := fun _ _ _ => rfl

theorem blind_raise {r : Reason} : Blind (raise r : Inf α) := fun _ _ _ => rfl

theorem blind_ensure {c : Prop} [Decidable c] : Blind (ensure c : Inf Unit) := by
  intro s o n
  unfold ensure
  split <;> rfl

theorem blind_orFault {a : Option α} : Blind (orFault a : Inf α) := by
  intro s o n
  cases a <;> rfl

theorem blind_liftBuild {b : Build α} : Blind (liftBuild b) := by
  intro s o n
  cases b <;> rfl

theorem blind_modify {m : State → State} (h : ∀ s o n, m (s.onto o n) = (m s).onto o n) :
    Blind (modify m : Inf PUnit) := by
  intro s o n
  show Except.ok (PUnit.unit, m (s.onto o n)) = Except.ok (PUnit.unit, (m s).onto o n)
  rw [h]

theorem Blind.bind (hp : Blind p) (hf : ∀ a, Blind (f a)) : Blind (p >>= f) := by
  intro s o n
  rcases hRun : p s with e | ⟨a, s'⟩
  · have hOther : p (s.onto o n) = .error e := by rw [hp, hRun]; rfl
    rw [bind_of_error hRun, bind_of_error hOther]
    rfl
  · have hOther : p (s.onto o n) = .ok (a, s'.onto o n) := by rw [hp, hRun]; rfl
    rw [bind_of_ok hRun, bind_of_ok hOther, hf a]

theorem blind_get {f : State → Inf β} (h : ∀ s o n, f (s.onto o n) = f s)
    (hf : ∀ s, Blind (f s)) : Blind (get >>= f) := by
  intro s o n
  show f (s.onto o n) (s.onto o n) = (f s s).map _
  rw [h, hf s]

theorem blind_ite {c : Prop} [Decidable c] (hThen : Blind p) (hElse : Blind p') :
    Blind (if c then p else p') := by
  split
  · exact hThen
  · exact hElse

/-! ## The input -/

theorem blind_fetchByte : Blind (fetchByte src) := by
  have hRest : ∀ s : State, Blind (orFault src[s.inpPos]? >>= fun b =>
      ensure (s.bitCnt < 32) >>= fun _ => (modify fun s => s.fetch b : Inf Unit)) := fun s =>
    blind_orFault.bind fun b => blind_ensure.bind fun _ => blind_modify fun _ _ _ => rfl
  refine blind_get (fun _ _ _ => rfl) fun s => ?_
  exact blind_ite (blind_raise.bind fun _ => hRest s) (hRest s)

theorem blind_fill (n fuel : Nat) : Blind (fill src n fuel) := by
  induction fuel with
  | zero => exact blind_pure
  | succ fuel ih =>
    refine blind_get (fun _ _ _ => rfl) fun s => ?_
    exact blind_ite (blind_fetchByte.bind fun _ => ih) blind_pure

theorem blind_dropBits (n : Nat) : Blind (dropBits n) :=
  blind_get (fun _ _ _ => rfl) fun _ => blind_ensure.bind fun _ => blind_modify fun _ _ _ => rfl

theorem blind_getBits (n : Nat) : Blind (getBits src n) := by
  unfold getBits
  refine blind_ite blind_pure (blind_ensure.bind fun _ => (blind_fill n n).bind fun _ => ?_)
  exact blind_get (fun _ _ _ => rfl) fun s => (blind_dropBits n).bind fun _ => blind_pure

theorem blind_decode (t : HuffmanTable) : Blind (decodeHuffmanSymbol src t) := by
  refine (blind_fill 15 15).bind fun _ => blind_get (fun _ _ _ => rfl) fun s => ?_
  refine blind_liftBuild.bind fun v => blind_ensure.bind fun _ => ?_
  have hRest : Blind (dropBits v.size >>= fun _ => (pure v.code : Inf Nat)) :=
    (blind_dropBits v.size).bind fun _ => blind_pure
  exact blind_ite (blind_raise.bind fun _ => hRest) hRest

theorem blind_readCodeSizes (order sizes : List Nat) : Blind (readCodeSizes src order sizes) := by
  induction order generalizing sizes with
  | nil => exact blind_pure
  | cons sym order ih =>
    exact (blind_getBits 3).bind fun size => blind_ensure.bind fun _ => ih _

theorem blind_repeatCount (d : Nat) : Blind (repeatCount src d) := by
  have hBits : ∀ n base, Blind (getBits src n >>= fun a => (pure (a + base) : Inf Nat)) :=
    fun n base => (blind_getBits n).bind fun _ => blind_pure
  exact blind_ite (hBits 2 3) (blind_ite (hBits 3 3) (blind_ite (hBits 7 11) blind_pure))

theorem blind_addLengths (lens : List Nat) (d : Nat) : Blind (addLengths src lens d) := by
  have hRepeat : Blind (do
      let n ← repeatCount src d
      if n = 0 then raise .other
      ensure (lens.length + n ≤ lenCodesMax)
      return lens ++ List.replicate n (if d = 16 then lens.getLastD 0 else 0)) := by
    refine (blind_repeatCount d).bind fun n => ?_
    exact blind_ite (blind_raise.bind fun _ => blind_ensure.bind fun _ => blind_pure)
      (blind_ensure.bind fun _ => blind_pure)
  exact blind_ite (blind_ensure.bind fun _ => blind_pure)
    (blind_ite (blind_raise.bind fun _ => hRepeat) hRepeat)

theorem blind_readLengths (t : HuffmanTable) (total fuel : Nat) (lens : List Nat) :
    Blind (readLengths src t total fuel lens) := by
  induction fuel generalizing lens with
  | zero => exact blind_pure
  | succ fuel ih =>
    exact blind_ite blind_pure
      ((blind_decode t).bind fun d => (blind_addLengths lens d).bind fun lens' => ih lens')

theorem blind_dynamicSizes : Blind (dynamicSizes src) := by
  refine (blind_getBits 5).bind fun literals => (blind_getBits 5).bind fun distances => ?_
  refine (blind_getBits 4).bind fun lengths => (blind_readCodeSizes _ _).bind fun sizes => ?_
  refine blind_liftBuild.bind fun t => (blind_readLengths _ _ _ _).bind fun lens => ?_
  exact blind_ite (blind_raise.bind fun _ => blind_pure) blind_pure

theorem blind_buildTables (sizes : List Nat × List Nat) (lengths : HuffmanTable) :
    Blind (buildTables sizes lengths) :=
  blind_ensure.bind fun _ => blind_liftBuild.bind fun _ => blind_liftBuild.bind fun _ =>
    blind_modify fun _ _ _ => rfl

theorem blind_decodeTables (type : Nat) : Blind (decodeTables src type) :=
  blind_ite (blind_buildTables _ _) (blind_dynamicSizes.bind fun _ => blind_buildTables _ _)

theorem blind_afterBlock : Blind afterBlock := by
  rw [afterBlock_eq]
  refine blind_get (fun _ _ _ => rfl) fun s => ?_
  exact blind_ite ((blind_modify fun _ _ _ => rfl).bind fun _ => blind_pure) blind_pure

theorem blind_headerStep : Blind (headerStep src) := by
  refine (blind_getBits 1).bind fun final => (blind_getBits 2).bind fun type => ?_
  refine (blind_modify fun _ _ _ => rfl).bind fun _ => ?_
  exact blind_ite blind_pure (blind_ite blind_raise blind_pure)

end

/-! ## Two outputs -/

/-- The states differ in the output only, and not before `high`. -/
def AlikeBelow (high : Nat) (s t : State) : Prop :=
  ∃ o, t = s.onto o s.outPos ∧ o.length = s.out.length ∧ ∀ i < high, o[i]? = s.out[i]?

/-- What has been written is the same. -/
def Alike (s t : State) : Prop := AlikeBelow s.outPos s t

section

variable {α : Type} {p : Inf α} {src : List UInt8} {phase : Phase} {s t : State} {high : Nat}

theorem Alike.below {low : Nat} (h : AlikeBelow high s t) (hLow : low ≤ high) :
    AlikeBelow low s t := by
  obtain ⟨o, hSame, hLength, hBytes⟩ := h
  exact ⟨o, hSame, hLength, fun i hi => hBytes i (by omega)⟩

theorem Blind.agrees (hp : Blind p) (h : Alike s t) : Agrees p p Alike s t := by
  obtain ⟨o, rfl, hLength, hBytes⟩ := h
  have hSelf : p s = (p s).map fun r => (r.1, r.2.onto s.out s.outPos) := hp s s.out s.outPos
  unfold Agrees
  rw [hp s o s.outPos]
  rcases hRun : p s with e | ⟨a, s'⟩
  · rfl
  · rw [hRun] at hSelf
    have hKept : s' = s'.onto s.out s.outPos := by
      injection hSelf with hPair
      injection hPair
    refine ⟨rfl, o, ?_, ?_, ?_⟩
    · show s'.onto o s.outPos = s'.onto o s'.outPos
      rw [hKept]
      rfl
    · rw [hKept]
      exact hLength
    · rw [hKept]
      exact hBytes

/-- A byte is written to both. -/
theorem putByte_agrees (b : UInt8) (h : AlikeBelow high s t) :
    Agrees (putByte b) (putByte b)
      (fun s' t' => s'.outPos = u32 (s.outPos + 1) ∧
        AlikeBelow (if high = s.outPos then s.outPos + 1 else high) s' t') s t := by
  obtain ⟨o, rfl, hLength, hBytes⟩ := h
  by_cases hRoom : s.outPos < s.out.length
  · have hOther : (s.onto o s.outPos).outPos < (s.onto o s.outPos).out.length := by
      show s.outPos < o.length
      omega
    unfold Agrees
    rw [putByte_of_lt hRoom, putByte_of_lt hOther]
    refine ⟨rfl, rfl, o.set s.outPos b, rfl, ?_, ?_⟩
    · simp only [State.put, List.length_set, hLength]
    · intro i hi
      by_cases hHere : i = s.outPos
      · subst hHere
        simp only [State.put]
        rw [List.getElem?_set_self hRoom, List.getElem?_set_self (by omega)]
      · simp only [State.put]
        rw [List.getElem?_set_ne (Ne.symm hHere), List.getElem?_set_ne (Ne.symm hHere)]
        refine hBytes i ?_
        split at hi <;> omega
  · have hFirst : putByte b s = .error .fault := by
      show (ensure (s.outPos < s.out.length) >>= fun _ => _ : Inf Unit) s = _
      unfold ensure
      rw [if_neg hRoom]
      rfl
    have hSecond : putByte b (s.onto o s.outPos) = .error .fault := by
      show (ensure (s.outPos < o.length) >>= fun _ => _ : Inf Unit) (s.onto o s.outPos) = _
      unfold ensure
      rw [if_neg (by omega)]
      rfl
    unfold Agrees
    rw [hFirst, hSecond]

/-- The loop that copies finds the same bytes. -/
theorem copyBytes_agrees {ofs : Nat} (len : Nat) (hWord : s.outPos < 2 ^ 32)
    (hOfs : high = s.outPos ∧ (len ≠ 0 → 1 ≤ ofs) ∧ ofs ≤ s.outPos ∨
      high = 2 ^ 32 ∧ ofs ≤ 2 ^ 32)
    (h : AlikeBelow high s t) :
    Agrees (copyBytes ofs len) (copyBytes ofs len) Alike s t := by
  induction len generalizing high s t with
  | zero =>
    refine agrees_pure (Alike.below h ?_)
    omega
  | succ len ih =>
    have hSource : u32 (s.outPos + 2 ^ 32 - ofs) < high := by
      rcases hOfs with ⟨hHigh, hOne, hLe⟩ | ⟨hHigh, hLe⟩
      · have hBack : s.outPos + 2 ^ 32 - ofs = s.outPos - ofs + 2 ^ 32 := by omega
        have := hOne (Nat.succ_ne_zero len)
        rw [hBack, u32, Nat.add_mod_right, Nat.mod_eq_of_lt (by omega)]
        omega
      · rw [hHigh]
        exact u32_lt _
    obtain ⟨o, rfl, hLength, hBytes⟩ := h
    have hPut := fun b => putByte_agrees b ⟨o, rfl, hLength, hBytes⟩
    refine agrees_get ?_
    show Agrees (orFault s.out[u32 (s.outPos + 2 ^ 32 - ofs)]? >>= _)
      (orFault o[u32 (s.outPos + 2 ^ 32 - ofs)]? >>= _) Alike s (s.onto o s.outPos)
    rw [hBytes _ hSource]
    refine (agrees_orFault (R := fun s' t' => s' = s ∧ t' = s.onto o s.outPos) ⟨rfl, rfl⟩).bind ?_
    rintro b s' t' ⟨hFirst, hSecond⟩
    rw [hFirst, hSecond]
    refine (hPut b).bind ?_
    rintro - s' t' ⟨hPos, hAlike⟩
    refine ih ?_ ?_ hAlike
    · rw [hPos]
      exact u32_lt _
    · rcases hOfs with ⟨hHigh, hOne, hLe⟩ | ⟨hHigh, hLe⟩
      · have hPositive := hOne (Nat.succ_ne_zero len)
        rw [if_pos hHigh, hPos]
        rcases Nat.lt_or_ge (s.outPos + 1) (2 ^ 32) with hLt | hGe
        · rw [u32_of_lt hLt]
          exact Or.inl ⟨rfl, fun _ => hPositive, by omega⟩
        · exact Or.inr ⟨by omega, by omega⟩
      · rw [if_neg (by omega)]
        exact Or.inr ⟨hHigh, hLe⟩

/-- A stored block is written to both. -/
theorem store_alike {o : List UInt8} {pos len n : Nat} (hPos : s.outPos + len ≤ s.out.length)
    (hSrc : pos + len ≤ src.length) (hLength : o.length = s.out.length)
    (hBytes : ∀ i < s.outPos, o[i]? = s.out[i]?) {s' : State} (hn : n = u32 (s.outPos + len))
    (hs' : s'.out = s.out.take s.outPos ++ ((src.drop pos).take len ++ s.out.drop (s.outPos + len)))
    (hs'n : s'.outPos = n) :
    Alike s' (s'.onto
      (o.take s.outPos ++ ((src.drop pos).take len ++ o.drop (s.outPos + len))) n) := by
  have hTake : o.take s.outPos = s.out.take s.outPos := by
    refine List.ext_getElem? fun i => ?_
    rw [List.getElem?_take, List.getElem?_take]
    split
    · exact hBytes i ‹_›
    · rfl
  refine ⟨_, by rw [hs'n], ?_, ?_⟩
  · rw [hs', hTake]
    simp only [List.length_append, List.length_drop, hLength]
  · intro i hi
    have hEnd := u32_le (s.outPos + len)
    rw [hs'n, hn] at hi
    have hPrefix : i < (s.out.take s.outPos ++ (src.drop pos).take len).length := by
      simp only [List.length_append, List.length_take, List.length_drop]
      omega
    rw [hs', hTake, ← List.append_assoc, ← List.append_assoc, List.getElem?_append_left hPrefix,
      List.getElem?_append_left hPrefix]

/-! ## Steps -/

theorem storedBlock_agrees (h : Alike s t) :
    Agrees (storedBlock src) (storedBlock src) Alike s t := by
  obtain ⟨o, rfl, hLength, hBytes⟩ := h
  refine (agrees_modify (R := fun s' t' => t' = s'.onto o s.outPos ∧ s'.out = s.out ∧
    s'.outPos = s.outPos) ⟨rfl, rfl, rfl⟩).bind ?_
  rintro - s' - ⟨rfl, hOut, hOutPos⟩
  refine agrees_get ?_
  have hKeep : ∀ {α : Type} {a : Option α}, Agrees (orFault a : Inf α) (orFault a)
      (fun u v => u = s' ∧ v = s'.onto o s.outPos) s' (s'.onto o s.outPos) :=
    agrees_orFault ⟨rfl, rfl⟩
  refine agrees_ite (fun _ => rfl) fun _ => hKeep.bind ?_
  rintro b0 u0 v0 ⟨hu0, hv0⟩
  rw [hu0, hv0]
  refine hKeep.bind ?_
  rintro b1 u1 v1 ⟨hu1, hv1⟩
  rw [hu1, hv1]
  refine hKeep.bind ?_
  rintro b2 u2 v2 ⟨hu2, hv2⟩
  rw [hu2, hv2]
  refine hKeep.bind ?_
  rintro b3 u3 v3 ⟨hu3, hv3⟩
  rw [hu3, hv3]
  have hLen : (s'.onto o s.outPos).out.length = s'.out.length := by
    rw [hOut]
    exact hLength
  have hPos : (s'.onto o s.outPos).outPos = s'.outPos := hOutPos.symm
  refine agrees_ite (fun _ => rfl) fun _ => agrees_ite (fun _ => rfl) fun _ => ?_
  rw [hLen, hPos]
  refine agrees_ite (fun _ => rfl) fun _ => ?_
  refine (agrees_ensure (R := fun u v => (_ ∧ _) ∧ u = s' ∧ v = s'.onto o s.outPos)
    fun hc => ⟨hc, rfl, rfl⟩).bind ?_
  rintro - u v ⟨⟨hSrc, hRoom⟩, hu, hv⟩
  rw [hu, hv]
  refine agrees_modify ?_
  have hBelow : ∀ i < s'.outPos, o[i]? = s'.out[i]? := by
    rw [hOut, hOutPos]
    exact hBytes
  rw [hPos]
  exact store_alike hRoom hSrc (hLen.trans rfl) hBelow rfl rfl rfl

/-- A symbol is written to both. -/
theorem symbolStep_agrees (h : Alike s t) :
    Agrees (symbolStep src) (symbolStep src) Alike s t := by
  have hTables : t.tables = s.tables := by
    obtain ⟨o, rfl, -⟩ := h
    rfl
  refine agrees_get ?_
  rw [hTables]
  refine ((blind_decode _).agrees h).bind ?_
  intro sym s' t' hAlike
  refine agrees_ite (fun _ => ?_) fun _ => agrees_ite (fun _ => blind_afterBlock.agrees hAlike)
    fun _ => ?_
  · have hPut := putByte_agrees (UInt8.ofNat sym) hAlike
    have hFull : t'.out.length = s'.out.length ∧ t'.outPos = s'.outPos := by
      obtain ⟨o, rfl, hLength, -⟩ := hAlike
      exact ⟨hLength, rfl⟩
    refine agrees_get ?_
    rw [hFull.1, hFull.2]
    refine agrees_ite (fun _ => rfl) fun _ => hPut.bind ?_
    rintro - u v ⟨hPos, hBoth⟩
    rw [if_pos rfl] at hBoth
    refine agrees_pure (Alike.below hBoth ?_)
    rw [hPos]
    exact u32_le _
  · generalize sym - 257 = k
    refine (agrees_orFault hAlike).bind fun base u v hBoth => ?_
    refine (agrees_orFault hBoth).bind fun extra u v hBoth => ?_
    exact ((blind_getBits extra).agrees hBoth).bind fun _ u v hBoth => agrees_pure hBoth

theorem distanceStep_agrees (len : Nat) (h : Alike s t) :
    Agrees (distanceStep src len) (distanceStep src len) Alike s t := by
  have hTables : t.tables = s.tables := by
    obtain ⟨o, rfl, -⟩ := h
    rfl
  refine agrees_get ?_
  rw [hTables]
  refine ((blind_decode _).agrees h).bind fun sym s' t' hAlike => ?_
  refine (agrees_orFault hAlike).bind fun base u v hBoth => ?_
  refine (agrees_orFault hBoth).bind fun extra u v hBoth => ?_
  refine ((blind_getBits extra).agrees hBoth).bind fun bits u v hBoth => agrees_get ?_
  have hFull : v.out.length = u.out.length ∧ v.outPos = u.outPos := by
    obtain ⟨o, rfl, hLength, -⟩ := hBoth
    exact ⟨hLength, rfl⟩
  rw [hFull.1, hFull.2]
  exact agrees_ite (fun _ => rfl) fun _ => agrees_ite (fun _ => rfl) fun _ => agrees_pure hBoth

/-- What is copied stands before the position, or nothing is copied. -/
def Distant : Status → Prop
  | .running (.copy len ofs) _ => len ≠ 0 → 1 ≤ ofs
  | _ => True

/-- One step with two outputs. -/
theorem decompressStep_agrees (hReady : Ready src phase s) (hDistant : Distant (.running phase s))
    (h : Alike s t) :
    Agrees (decompressStep src phase) (decompressStep src phase) Alike s t := by
  cases phase with
  | header => exact blind_headerStep.agrees h
  | stored => exact (storedBlock_agrees h).bind fun _ u v hBoth => blind_afterBlock.agrees hBoth
  | tables type =>
    exact ((blind_decodeTables type).bind fun _ => blind_pure).agrees h
  | symbol => exact symbolStep_agrees h
  | distance len => exact distanceStep_agrees len h
  | copy len ofs =>
    obtain ⟨hOfs, -⟩ := hReady.copies len ofs rfl
    exact (copyBytes_agrees len hReady.word (Or.inl ⟨rfl, hDistant, hOfs⟩) h).bind
      fun _ u v hBoth => agrees_pure hBoth

end

/-! ## Runs -/

/-- Two decompressions are at the same place, with the same output up to there. -/
def AlikeStatus : Status → Status → Prop
  | .running phase s, .running phase' t => phase = phase' ∧ Alike s t
  | .finished s, .finished t => Alike s t
  | .raised r, .raised r' => r = r'
  | _, _ => False

section

variable {src : List UInt8} {st st' next : Status}

theorem step_alike (hSteady : Steady src st) (hDistant : Distant st) (h : AlikeStatus st st')
    (hStep : step src st () = some next) :
    ∃ next', step src st' () = some next' ∧ AlikeStatus next next' := by
  cases st with
  | running phase s =>
    cases st' with
    | running phase' t =>
      obtain ⟨rfl, hAlike⟩ := h
      have hAgrees := decompressStep_agrees hSteady hDistant hAlike
      unfold Agrees at hAgrees
      rw [step_running] at hStep
      rw [step_running]
      rcases hFirst : decompressStep src phase s with e | ⟨a, s'⟩ <;>
        rcases hSecond : decompressStep src phase t with e' | ⟨b, t'⟩ <;>
        rw [hFirst, hSecond] at hAgrees
      · subst hAgrees
        rw [hFirst] at hStep
        rcases e with r | -
        · cases hStep
          exact ⟨_, rfl, rfl⟩
        · cases hStep
      · exact hAgrees.elim
      · exact hAgrees.elim
      · obtain ⟨rfl, hBoth⟩ := hAgrees
        rw [hFirst] at hStep
        rcases a with - | phase'
        · cases hStep
          exact ⟨_, rfl, hBoth⟩
        · cases hStep
          exact ⟨_, rfl, rfl, hBoth⟩
    | finished => exact h.elim
    | raised => exact h.elim
  | finished s =>
    cases hStep
    cases st' with
    | finished t => exact ⟨_, rfl, h⟩
    | running => exact h.elim
    | raised => exact h.elim
  | raised r =>
    cases hStep
    cases st' with
    | raised r' => exact ⟨_, rfl, h⟩
    | running => exact h.elim
    | finished => exact h.elim

theorem run_alike (n : Nat) (hSteady : Steady src st) (h : AlikeStatus st st')
    (hMeets : Meets (step src) (fun st _ => Orderly src st ∧ Distant st) st (List.replicate n ()))
    (hRun : run (step src) st (List.replicate n ()) = some next) :
    ∃ next', run (step src) st' (List.replicate n ()) = some next' ∧ AlikeStatus next next' := by
  induction n generalizing st st' with
  | zero =>
    cases hRun
    exact ⟨st', rfl, h⟩
  | succ n ih =>
    rw [List.replicate_succ, run_cons] at hRun
    obtain ⟨mid, hFirst, hRest⟩ := Option.bind_eq_some_iff.1 hRun
    obtain ⟨hOrderly, hDistant⟩ := hMeets.1
    obtain ⟨mid', hSame, hSteady', -⟩ := step_orderly hSteady hOrderly
    cases hSame.symm.trans hFirst
    obtain ⟨other, hOther, hAlike⟩ := step_alike hSteady hDistant h hFirst
    obtain ⟨next', hEnd, hBoth⟩ := ih hSteady' hAlike (hMeets.2 mid hFirst) hRest
    exact ⟨next', by rw [List.replicate_succ, run_cons, hOther]; exact hEnd, hBoth⟩

end

/-- Two decompressions of the same bytes to buffers of the same size both raise, or both return the
same count, with the same bytes written. -/
theorem decompress_determined (src dst dst' : List UInt8) (hLength : dst'.length = dst.length)
    (h : ∀ n, Meets (step src) (fun st _ => Orderly src st ∧ Distant st) (start dst)
      (List.replicate n ())) :
    ∃ n, (∃ r, run (step src) (start dst) (List.replicate n ()) = some (.raised r) ∧
        run (step src) (start dst') (List.replicate n ()) = some (.raised r)) ∨
      ∃ s t, run (step src) (start dst) (List.replicate n ()) = some (.finished s) ∧
        run (step src) (start dst') (List.replicate n ()) = some (.finished t) ∧
        t.inpPos = s.inpPos ∧ t.outPos = s.outPos ∧
        t.out.take t.outPos = s.out.take s.outPos := by
  have hStart : AlikeStatus (start dst) (start dst') :=
    ⟨rfl, dst', rfl, hLength, fun i hi => absurd hi (Nat.not_lt_zero i)⟩
  obtain ⟨n, st, hRun, hEnd⟩ := run_ends src dst fun n => (h n).mono fun st _ hBoth => hBoth.1
  obtain ⟨st', hRun', hAlike⟩ := run_alike n (steady_start src dst) hStart (h n) hRun
  refine ⟨n, ?_⟩
  cases st with
  | running => exact hEnd.elim
  | finished s =>
    cases st' with
    | finished t =>
      obtain ⟨o, rfl, hSize, hBytes⟩ := hAlike
      refine Or.inr ⟨s, _, hRun, hRun', rfl, rfl, List.ext_getElem? fun i => ?_⟩
      show (o.take s.outPos)[i]? = (s.out.take s.outPos)[i]?
      rw [List.getElem?_take, List.getElem?_take]
      split
      · exact hBytes i ‹_›
      · rfl
    | running => exact hAlike.elim
    | raised => exact hAlike.elim
  | raised r =>
    cases st' with
    | raised r' =>
      cases hAlike
      exact Or.inl ⟨r, hRun, hRun'⟩
    | running => exact hAlike.elim
    | finished => exact hAlike.elim

/-- A stored block of one byte. -/
def storedByte : List UInt8 := [1, 1, 0, 254, 255, 65]

theorem decompress_determined_stored :
    ∃ n, (∃ r, run (step storedByte) (start [0]) (List.replicate n ()) = some (.raised r) ∧
        run (step storedByte) (start [7]) (List.replicate n ()) = some (.raised r)) ∨
      ∃ s t, run (step storedByte) (start [0]) (List.replicate n ()) = some (.finished s) ∧
        run (step storedByte) (start [7]) (List.replicate n ()) = some (.finished t) ∧
        t.inpPos = s.inpPos ∧ t.outPos = s.outPos ∧
        t.out.take t.outPos = s.out.take s.outPos := by
  refine decompress_determined _ _ _ rfl fun n => ?_
  rcases n with - | - | n
  · trivial
  · exact ⟨⟨Or.inl (by decide), trivial⟩, fun st hStep => trivial⟩
  · refine ⟨⟨Or.inl (by decide), trivial⟩, ?_⟩
    rintro st hStep
    cases hStep
    refine ⟨⟨⟨by decide, ?_⟩, trivial⟩, ?_⟩
    · rintro len ⟨b0, b1, b2, b3, h0, h1, h2, h3, rfl, -⟩ -
      cases h0
      cases h1
      exact ⟨by decide, Or.inl (by decide)⟩
    · rintro st hStep
      have hEnded : (finishedOutput (step storedByte (.running .stored
          ⟨1, 0, 5, [0], 0, ⟨.zero, .zero, .zero⟩, true⟩) ())).isSome = true := by decide +kernel
      have hSame : step storedByte (.running .stored
          ⟨1, 0, 5, [0], 0, ⟨.zero, .zero, .zero⟩, true⟩) () = some st := hStep
      rw [hSame] at hEnded
      cases st with
      | finished t =>
        have hEnd : Ended (.finished t) := trivial
        exact meets_ended hEnd ⟨trivial, trivial⟩ n
      | _ => cases hEnded

theorem run_ended {src : List UInt8} {st : Status} (h : Ended st) (n : Nat) :
    run (step src) st (List.replicate n ()) = some st := by
  induction n with
  | zero => rfl
  | succ n ih => rw [List.replicate_succ, run_cons, step_ended h, Option.bind_some, ih]

/-- A decompression ends once. -/
theorem ended_unique {src dst : List UInt8} {n m : Nat} {st st' : Status}
    (h : run (step src) (start dst) (List.replicate n ()) = some st) (hEnd : Ended st)
    (h' : run (step src) (start dst) (List.replicate m ()) = some st') (hEnd' : Ended st') :
    st = st' := by
  have hLater : ∀ {n k : Nat} {u : Status},
      run (step src) (start dst) (List.replicate n ()) = some u → Ended u →
        run (step src) (start dst) (List.replicate (n + k) ()) = some u := by
    intro n k u hRun hu
    rw [List.replicate_add, run_append, hRun, Option.bind_some, run_ended hu]
  have hFirst := hLater (k := m) h hEnd
  have hSecond := hLater (k := n) h' hEnd'
  rw [Nat.add_comm] at hSecond
  exact Option.some.inj (hFirst.symm.trans hSecond)

set_option maxRecDepth 100000 in
/-- What was in the output is what is written. -/
theorem not_determined : ¬ ∀ src dst dst' : List UInt8, dst'.length = dst.length →
    ∃ n, (∃ r, run (step src) (start dst) (List.replicate n ()) = some (.raised r) ∧
        run (step src) (start dst') (List.replicate n ()) = some (.raised r)) ∨
      ∃ s t, run (step src) (start dst) (List.replicate n ()) = some (.finished s) ∧
        run (step src) (start dst') (List.replicate n ()) = some (.finished t) ∧
        t.inpPos = s.inpPos ∧ t.outPos = s.outPos ∧
        t.out.take t.outPos = s.out.take s.outPos := by
  have hOutput : ∀ b : UInt8, b = 0 ∨ b = 1 →
      ∃ s, run (step unusedDistance) (start [b, b, b]) (List.replicate 6 ()) =
        some (.finished s) ∧ s.out.take s.outPos = [b, b, b] := by
    intro b hb
    have hFinished : finishedOutput (run (step unusedDistance) (start [b, b, b])
        (List.replicate 6 ())) = some [b, b, b] := by
      rcases hb with rfl | rfl <;> decide +kernel
    unfold finishedOutput at hFinished
    split at hFinished
    · rename_i s hSame
      exact ⟨s, hSame, Option.some.inj hFinished⟩
    · cases hFinished
  intro hAll
  obtain ⟨u, hu, hZeros⟩ := hOutput 0 (Or.inl rfl)
  obtain ⟨v, hv, hOnes⟩ := hOutput 1 (Or.inr rfl)
  obtain ⟨n, ⟨r, hRaise, -⟩ | ⟨s, t, hs, ht, -, -, hSame⟩⟩ :=
    hAll unusedDistance [0, 0, 0] [1, 1, 1] rfl
  · cases ended_unique hRaise trivial hu trivial
  · cases ended_unique hs trivial hu trivial
    cases ended_unique ht trivial hv trivial
    rw [hZeros, hOnes] at hSame
    revert hSame
    decide

end TcfAgent.Inflate
