import TcfAgent.Services.Replanting

/-!
# Breakpoint hits

`evaluate_breakpoint` of `services/breakpoints.c` records a request for every breakpoint at
which a context has stopped. When the evaluation request of the group is linked already, the
group is not posted again: whoever processes it is expected to look at the new requests too.
A generation does so as long as the client of the group has not come to its end; after that
nobody does, and the requests are used up with `condition_ok` not set.

A breakpoint and a context are watched from some point of a run on; they are good in every
world that is seen from there.

Main results:

* `watch_step`    — the requests of the watched context and breakpoint are not lost in a step;
* `hits_not_lost` — nor in a run, when every stop is in time;
* `hit_lost`      — a run that loses one.
-/


namespace TcfAgent.Replanting

open TcfAgent.Lib

variable {G T B I : Type} [DecidableEq G] [DecidableEq T] [DecidableEq B] [DecidableEq I]

/-- The context does not stop at the breakpoint when the group is active and the client of the
group has already come to its end. -/
def InTime (ctx : T) (bp : B) (s : State G T B I) : Event G T B I → Prop
  | .stop _ ctx' g stops _ =>
    ctx' = ctx → bp ∈ stops.map Prod.snd → g ∈ s.active → g ∈ s.clients
  | _ => True

instance (ctx : T) (bp : B) (s : State G T B I) :
    (e : Event G T B I) → Decidable (InTime ctx bp s e)
  | .stop _ ctx' g stops _ => inferInstanceAs (Decidable
      (ctx' = ctx → bp ∈ stops.map Prod.snd → g ∈ s.active → g ∈ s.clients))
  | .location _ _ => inferInstanceAs (Decidable True)
  | .dispatch _ => inferInstanceAs (Decidable True)
  | .rerun _ _ => inferInstanceAs (Decidable True)

/-- Every world that is looked at in the step has the property. -/
def Event.Sees (P : World T B → Prop) : Event G T B I → Prop
  | .location _ _ => True
  | .stop w _ _ _ _ => P w
  | .dispatch turns => ∀ g, P (turns g).world
  | .rerun _ turn => P turn.world

/-- A condition request of the context and the breakpoint that is used up has been found good,
and the hit has been counted unless the context is gone. -/
def Obs.Fine (ctx : T) (bp : B) : Obs G T B I → Prop
  | .consumed _ c fate => c.ctx = ctx → c.bp = bp → c.conditionOk = true ∧ fate ≠ .failed
  | _ => True

/-- The observation is that a hit of the breakpoint is counted for the group. -/
def Obs.counts (bp : B) (g : G) : Obs G T B I → Bool
  | .consumed g' c fate => g' = g ∧ c.bp = bp ∧ (fate = .ignored ∨ fate = .reported)
  | _ => false

def Obs.isConsumed : Obs G T B I → Bool
  | .consumed _ _ _ => true
  | _ => false

/-- Since `n` observations were made, the requests that were used up were fine, and the hits
were counted as observed; `hits` is what had been counted before. -/
structure Clean (ctx : T) (bp : B) (n : Nat) (hits : B → G → Nat) (s : State G T B I) :
    Prop where
  length : n ≤ s.log.length
  log : ∀ o ∈ s.log.drop n, o.Fine ctx bp
  counted : ∀ b g, s.hitCount b g = hits b g + (s.log.drop n).countP (Obs.counts b g)

/-- The requests of the watched context and breakpoint are linked, and those whose client has
come to its end have `condition_ok` set. -/
structure Watch (ctx : T) (bp : B) (n : Nat) (hits : B → G → Nat) (s : State G T B I) : Prop
    extends Clean ctx bp n hits s where
  linked : ∀ g, ∀ c ∈ (s.req g).conds, c.ctx = ctx → c.bp = bp → g ∈ s.posted ∨ g ∈ s.active
  evaluated : ∀ g, ∀ c ∈ (s.req g).conds, c.ctx = ctx → c.bp = bp →
    g ∈ s.active → g ∉ s.clients → c.conditionOk = true

variable {ctx : T} {bp : B} {n : Nat} {hits : B → G → Nat}

/-! ## Posting -/

/-- What posting does: requests are linked, and what is observed is not a condition. -/
structure Posts (s s' : State G T B I) : Prop where
  kept : Kept s s'
  posted : ∀ g ∈ s.posted, g ∈ s'.posted
  log : ∃ out, s'.log = s.log ++ out ∧ ∀ o ∈ out, o.isConsumed = false

variable {s : State G T B I}

omit [DecidableEq G] [DecidableEq T] [DecidableEq B] [DecidableEq I] in
theorem Posts.rfl : Posts s s :=
  ⟨.rfl, fun _ h => h, [], by simp, by simp⟩

omit [DecidableEq G] [DecidableEq T] [DecidableEq B] [DecidableEq I] in
theorem Posts.trans {s₁ s₂ s₃ : State G T B I} (h : Posts s₁ s₂) (h' : Posts s₂ s₃) :
    Posts s₁ s₃ := by
  obtain ⟨out, hLog, hOut⟩ := h.log
  obtain ⟨out', hLog', hOut'⟩ := h'.log
  refine ⟨h.kept.trans h'.kept, fun g hg => h'.posted g (h.posted g hg), out ++ out',
    by rw [hLog', hLog, List.append_assoc], fun o ho => ?_⟩
  exact (List.mem_append.1 ho).elim (hOut o) (hOut' o)

omit [DecidableEq T] [DecidableEq B] [DecidableEq I] in
theorem posts_postEvaluationRequest (g : G) (job : Job B) (s : State G T B I) :
    Posts s (postEvaluationRequest g job s) := by
  refine ⟨kept_postEvaluationRequest g job s, ?_, ?_⟩
  all_goals
    unfold postEvaluationRequest
    split
  · exact fun _ h => h
  · dsimp only
    split
    all_goals exact fun _ h => List.mem_append_left _ h
  · exact ⟨[.posted g job], Eq.refl _, by simp [Obs.isConsumed]⟩
  · dsimp only
    split
    · exact ⟨[.lock, .posted g job], by simp [postReplantEvent, runCtrlLock, State.emit],
        by simp [Obs.isConsumed]⟩
    · exact ⟨[.posted g job], Eq.refl _, by simp [Obs.isConsumed]⟩

omit [DecidableEq T] [DecidableEq B] [DecidableEq I] in
theorem posts_postLocation (g : G) (b : Option B) (s : State G T B I) :
    Posts s (postLocation g b s) := by
  have h := posts_postEvaluationRequest g (.location b)
    (s.setReq g { s.req g with locPosted := (s.req g).locPosted.add b })
  exact ⟨kept_postLocation g b s, h.posted, h.log⟩

omit [DecidableEq T] [DecidableEq B] [DecidableEq I] in
theorem posts_postLocations (posts : List (G × Option B)) (s : State G T B I) :
    Posts s (postLocations posts s) := by
  induction posts generalizing s with
  | nil => exact .rfl
  | cons p posts ih => exact (posts_postLocation p.1 p.2 s).trans (ih _)

omit [DecidableEq G] [DecidableEq T] [DecidableEq B] [DecidableEq I] in
theorem fine_of_not_consumed {o : Obs G T B I} (h : o.isConsumed = false) : o.Fine ctx bp := by
  cases o with
  | consumed g c fate => cases h
  | _ => trivial

omit [DecidableEq T] [DecidableEq I] in
theorem not_counts_of_not_consumed {o : Obs G T B I} (h : o.isConsumed = false) (b : B) (g : G) :
    o.counts b g = false := by
  cases o with
  | consumed g c fate => cases h
  | _ => rfl

omit [DecidableEq G] [DecidableEq T] [DecidableEq B] [DecidableEq I] in
theorem clean_append {l out : List (Obs G T B I)} (hLength : n ≤ l.length)
    (h : ∀ o ∈ l.drop n, o.Fine ctx bp) (hOut : ∀ o ∈ out, o.Fine ctx bp) :
    ∀ o ∈ (l ++ out).drop n, o.Fine ctx bp := by
  rw [List.drop_append_of_le_length hLength]
  exact fun o ho => (List.mem_append.1 ho).elim (h o) (hOut o)

variable {s s' : State G T B I}

omit [DecidableEq T] [DecidableEq I] in
/-- Other observations are added. -/
theorem Clean.extend (h : Clean ctx bp n hits s)
    (hLog : ∃ out, s'.log = s.log ++ out ∧ ∀ o ∈ out, o.isConsumed = false)
    (hHits : s'.hitCount = s.hitCount) : Clean ctx bp n hits s' := by
  obtain ⟨out, hEq, hOut⟩ := hLog
  refine ⟨?_, ?_, fun b g => ?_⟩
  · rw [hEq, List.length_append]
    exact Nat.le_add_right_of_le h.length
  · rw [hEq]
    exact clean_append h.length h.log fun o ho => fine_of_not_consumed (hOut o ho)
  · have hNone : out.countP (Obs.counts b g) = 0 :=
      List.countP_eq_zero.2 fun o ho => by simp [not_counts_of_not_consumed (hOut o ho)]
    rw [hEq, List.drop_append_of_le_length h.length, List.countP_append, hNone, hHits, h.counted]
    rfl

omit [DecidableEq T] [DecidableEq I] in
theorem Posts.clean (hPosts : Posts s s') (h : Clean ctx bp n hits s) :
    Clean ctx bp n hits s' := h.extend hPosts.log hPosts.kept.hitCount

omit [DecidableEq T] [DecidableEq I] in
theorem Posts.watch (hPosts : Posts s s') (h : Watch ctx bp n hits s) :
    Watch ctx bp n hits s' := by
  refine ⟨hPosts.clean h.toClean, fun g c hc hCtx hBp => ?_, fun g c hc hCtx hBp hActive hNot => ?_⟩
  · rw [hPosts.kept.conds] at hc
    rw [hPosts.kept.active]
    exact (h.linked g c hc hCtx hBp).imp (hPosts.posted g) id
  · rw [hPosts.kept.conds] at hc
    rw [hPosts.kept.active] at hActive
    rw [hPosts.kept.clients] at hNot
    exact h.evaluated g c hc hCtx hBp hActive hNot

/-! ## Conditions that are used up -/

variable {c : Cond T B I}

omit [DecidableEq T] [DecidableEq I] in
/-- A request is used up: it is fine, and the hit is counted as observed. -/
theorem Clean.consumed (h : Clean ctx bp n hits s) {g : G}
    {fate : Fate} (hLog : s'.log = s.log ++ [.consumed g c fate])
    (hFine : (Obs.consumed g c fate : Obs G T B I).Fine ctx bp)
    (hHits : ∀ b g', s'.hitCount b g' = s.hitCount b g' +
      if (Obs.consumed g c fate : Obs G T B I).counts b g' then 1 else 0) :
    Clean ctx bp n hits s' := by
  refine ⟨?_, ?_, fun b g' => ?_⟩
  · rw [hLog, List.length_append]
    exact Nat.le_add_right_of_le h.length
  · rw [hLog]
    refine clean_append h.length h.log fun o ho => ?_
    obtain rfl := List.mem_singleton.1 ho
    exact hFine
  · rw [hLog, List.drop_append_of_le_length h.length, List.countP_append, List.countP_singleton,
      hHits, h.counted, Nat.add_assoc]

omit [DecidableEq T] [DecidableEq I] in
theorem doneCondition_clean (h : Clean ctx bp n hits s) (w : World T B) (g : G)
    (hOk : c.ctx = ctx → c.bp = bp → c.conditionOk = true) :
    Clean ctx bp n hits (doneCondition w g c s) := by
  unfold doneCondition
  split
  · exact h.consumed rfl (fun hCtx hBp => ⟨hOk hCtx hBp, by simp⟩) fun b g' => by
      simp [State.emit, Obs.counts]
  split
  · rename_i hNot
    refine h.consumed rfl (fun hCtx hBp => ?_) fun b g' => by simp [State.emit, Obs.counts]
    exact absurd ((hOk hCtx hBp).symm.trans hNot) (by simp)
  · obtain ⟨fate, hFate, hCount⟩ : ∃ fate : Fate,
        (if s.hitCount c.bp g + 1 ≤ w.ignoreCount c.bp then .ignored else .reported) = fate ∧
          (fate = .ignored ∨ fate = .reported) := by
      split
      · exact ⟨.ignored, rfl, .inl rfl⟩
      · exact ⟨.reported, rfl, .inr rfl⟩
    dsimp only
    rw [hFate]
    have hNe : fate ≠ .failed := by rcases hCount with rfl | rfl <;> simp
    refine h.consumed rfl (fun hCtx hBp => ⟨hOk hCtx hBp, hNe⟩) fun b g' => ?_
    by_cases hb : b = c.bp
    · subst hb
      by_cases hg : g' = g
      · subst hg
        simp [State.emit, Obs.counts, hCount]
      · simp [State.emit, Obs.counts, Function.update_of_ne hg, Ne.symm hg]
    · simp [State.emit, Obs.counts, Function.update_of_ne hb, Ne.symm hb]

omit [DecidableEq T] [DecidableEq I] in
theorem req_doneCondition (w : World T B) (g : G) (c : Cond T B I) (s : State G T B I) :
    (doneCondition w g c s).req = s.req := by
  unfold doneCondition
  split
  · rfl
  split
  · rfl
  · rfl

omit [DecidableEq T] [DecidableEq I] in
theorem doneConditions_clean (h : Clean ctx bp n hits s) (w : World T B) (g : G)
    (conds : List (Cond T B I))
    (hOk : ∀ c ∈ conds, c.ctx = ctx → c.bp = bp → c.conditionOk = true) :
    Clean ctx bp n hits (conds.foldl (fun s c => doneCondition w g c s) s) ∧
      (conds.foldl (fun s c => doneCondition w g c s) s).req = s.req := by
  induction conds generalizing s with
  | nil => exact ⟨h, rfl⟩
  | cons c conds ih =>
    obtain ⟨hRest, hReq⟩ := ih (doneCondition_clean h w g (hOk c List.mem_cons_self))
      fun c hc => hOk c (List.mem_cons_of_mem _ hc)
    exact ⟨hRest, hReq.trans (req_doneCondition w g c s)⟩

omit [DecidableEq T] [DecidableEq I] in
/-- The groups of a generation that is finished, one after another. -/
theorem doneGroups_clean (h : Clean ctx bp n hits s) (w : World T B)
    (gs : List G) (hOk : ∀ g ∈ gs, ∀ c ∈ (s.req g).conds, c.ctx = ctx → c.bp = bp →
      c.conditionOk = true) :
    Clean ctx bp n hits (gs.foldl (fun s g => doneConditionEvaluation w g s) s) ∧
      (gs.foldl (fun s g => doneConditionEvaluation w g s) s).req = s.req := by
  induction gs generalizing s with
  | nil => exact ⟨h, rfl⟩
  | cons g gs ih =>
    obtain ⟨h', hReq⟩ := doneConditions_clean h w g (s.req g).conds (hOk g List.mem_cons_self)
    have hReq' : (doneConditionEvaluation w g s).req = s.req := hReq
    obtain ⟨hRest, hReqs⟩ := ih (s := doneConditionEvaluation w g s) h' fun g' hg' c hc => by
      rw [hReq'] at hc
      exact hOk g' (List.mem_cons_of_mem _ hg') c hc
    exact ⟨hRest, hReqs.trans hReq'⟩

/-! ## Generations -/

variable {w : World T B}

omit [DecidableEq T] [DecidableEq I] in
/-- Conditions are evaluated: those of the watched requests are found good. -/
theorem evaluateConditions_watch (h : Watch ctx bp n hits s)
    (hGood : w.ok ctx bp = true) (g : G) :
    Watch ctx bp n hits (evaluateConditions w g s) ∧
      ∀ c ∈ ((evaluateConditions w g s).req g).conds, c.ctx = ctx → c.bp = bp →
        c.conditionOk = true := by
  have hOwn : ∀ c ∈ ((evaluateConditions w g s).req g).conds, c.ctx = ctx → c.bp = bp →
      (∃ c₀ ∈ (s.req g).conds, c₀.ctx = ctx ∧ c₀.bp = bp) ∧ c.conditionOk = true := by
    intro c hc hCtx hBp
    simp only [evaluateConditions, State.setReq, Function.update_self, List.mem_map] at hc
    obtain ⟨c₀, hc₀, rfl⟩ := hc
    refine ⟨⟨c₀, hc₀, hCtx, hBp⟩, ?_⟩
    show w.ok c₀.ctx c₀.bp = true
    rw [hCtx, hBp]
    exact hGood
  have hOther (g' : G) (hg : g' ≠ g) : (evaluateConditions w g s).req g' = s.req g' := by
    simp [evaluateConditions, State.setReq, Function.update_of_ne hg]
  refine ⟨⟨{ h.toClean with }, fun g' c hc hCtx hBp => ?_,
    fun g' c hc hCtx hBp hActive hNot => ?_⟩, fun c hc hCtx hBp => (hOwn c hc hCtx hBp).2⟩
  · by_cases hg : g' = g
    · subst hg
      obtain ⟨⟨c₀, hc₀, hCtx₀, hBp₀⟩, -⟩ := hOwn c hc hCtx hBp
      exact h.linked g' c₀ hc₀ hCtx₀ hBp₀
    · rw [hOther g' hg] at hc
      exact h.linked g' c hc hCtx hBp
  · by_cases hg : g' = g
    · subst hg
      exact (hOwn c hc hCtx hBp).2
    · rw [hOther g' hg] at hc
      exact h.evaluated g' c hc hCtx hBp hActive hNot

omit [DecidableEq T] [DecidableEq I] in
/-- Requests are released: what they had recorded has been used up. -/
theorem releaseActive_watch (h : Watch ctx bp n hits s) (gs : List G) :
    Watch ctx bp n hits (releaseActive gs s) := by
  induction gs generalizing s with
  | nil => exact h
  | cons g gs ih =>
    refine ih ⟨{ h.toClean with }, fun g' c hc hCtx hBp => ?_,
      fun g' c hc hCtx hBp hActive hNot => ?_⟩
    all_goals
      by_cases hg : g' = g
      · subst hg
        simp [State.setReq] at hc
      simp only [State.setReq, Function.update_of_ne hg] at hc
    · exact (h.linked g' c hc hCtx hBp).imp id (List.mem_erase_of_ne hg).2
    · exact h.evaluated g' c hc hCtx hBp (List.mem_of_mem_erase hActive) hNot

omit [DecidableEq T] [DecidableEq I] in
theorem doneAllEvaluations_watch (h : Watch ctx bp n hits s)
    (hClients : s.clients = []) (turn : Turn G T B) :
    Watch ctx bp n hits (doneAllEvaluations turn s) := by
  have hFinished : Clean ctx bp n hits (s.emit .finished) :=
    h.toClean.extend ⟨[.finished], rfl, by simp [Obs.isConsumed]⟩ rfl
  obtain ⟨hClean, hReq⟩ := doneGroups_clean hFinished turn.world s.active
    fun g hg c hc hCtx hBp => h.evaluated g c hc hCtx hBp hg (by simp [hClients])
  have hSame := (silent_foldl (silent_doneConditionEvaluation turn.world) s.active
    (s.emit .finished)).same
  refine releaseActive_watch ((posts_postLocations turn.callbacks _).watch ⟨hClean,
    fun g c hc hCtx hBp => ?_, fun g c hc hCtx hBp hActive hNot => ?_⟩) s.active
  · rw [hReq] at hc
    rw [hSame.posted, hSame.active]
    exact h.linked g c hc hCtx hBp
  · rw [hReq] at hc
    rw [hSame.active] at hActive
    rw [hSame.clients] at hNot
    exact h.evaluated g c hc hCtx hBp hActive hNot

omit [DecidableEq T] [DecidableEq I] in
theorem finishGeneration_watch (h : Watch ctx bp n hits s)
    (hClients : s.clients = []) {turn : Turn G T B} (hStep : finishGeneration turn s = some s') :
    Watch ctx bp n hits s' := by
  have hDone := doneAllEvaluations_watch h hClients turn
  unfold finishGeneration at hStep
  dsimp only at hStep
  split at hStep
  · cases hStep
  obtain ⟨s₂, hEq, h₂⟩ : ∃ s₂, (if (doneAllEvaluations turn s).posted = [] then
        postLocations turn.flushing (doneAllEvaluations turn s)
      else doneAllEvaluations turn s) = s₂ ∧ Watch ctx bp n hits s₂ := by
    split
    · exact ⟨_, rfl, (posts_postLocations turn.flushing _).watch hDone⟩
    · exact ⟨_, rfl, hDone⟩
  rw [hEq] at hStep
  split at hStep
  · cases hStep
    exact { h₂ with }
  split at hStep
  · cases hStep
  split at hStep
  · cases hStep
  · simp only [runCtrlUnlock] at hStep
    split at hStep
    · cases hStep
    · cases hStep
      exact { h₂ with toClean := h₂.toClean.extend ⟨[.unlock], rfl, by simp [Obs.isConsumed]⟩ rfl }

omit [DecidableEq T] [DecidableEq I] in
theorem replantClient_watch (h : Watch ctx bp n hits s)
    (hCnt : s.cacheEnterCnt = s.clients.length) {turn : Turn G T B} {g : G} (hg : g ∈ s.clients)
    (hGood : turn.world.ok ctx bp = true) (hStep : replantClient turn g s = some s') :
    Watch ctx bp n hits s' := by
  obtain ⟨hEvaluated, hOwn⟩ :=
    evaluateConditions_watch ((posts_postLocations turn.posts s).watch h) hGood g
  have hKept := kept_postLocations turn.posts s
  have hSame := (silent_setConds (postLocations turn.posts s) g
    (((postLocations turn.posts s).req g).conds.map fun c =>
      { c with conditionOk := turn.world.ok c.ctx c.bp })).same
  unfold replantClient at hStep
  split at hStep
  · cases hStep
  split at hStep
  · cases hStep
    exact h
  · cases hStep
    exact hEvaluated
  · dsimp only at hStep
    obtain ⟨s₁, hs₁⟩ : ∃ s₁, evaluateConditions turn.world g (postLocations turn.posts s) = s₁ :=
      ⟨_, rfl⟩
    have hClients₁ : s₁.clients = s.clients := hs₁ ▸ hSame.clients.trans hKept.clients
    have hCnt₁ : s₁.cacheEnterCnt = s.cacheEnterCnt :=
      hs₁ ▸ hSame.cacheEnterCnt.trans hKept.cacheEnterCnt
    rw [hs₁] at hStep hEvaluated hOwn
    -- the client is not waited for any more, and it has looked at what was recorded
    have hExit : Watch ctx bp n hits ({ s₁ with
        cacheEnterCnt := s₁.cacheEnterCnt - 1
        clients := s₁.clients.erase g }.emit (.evaluated g (s₁.req g).locActive)) := by
      refine ⟨hEvaluated.toClean.extend ⟨[.evaluated g (s₁.req g).locActive], rfl, by
        simp [Obs.isConsumed]⟩ rfl, hEvaluated.linked, fun g' c hc hCtx hBp hActive hNot => ?_⟩
      by_cases hg' : g' = g
      · subst hg'
        exact hOwn c hc hCtx hBp
      · exact hEvaluated.evaluated g' c hc hCtx hBp hActive fun hIn =>
          hNot ((List.mem_erase_of_ne hg').2 hIn)
    split at hStep
    · cases hStep
    split at hStep
    · rename_i hLast
      refine finishGeneration_watch hExit ?_ hStep
      change s₁.cacheEnterCnt - 1 = 0 at hLast
      show s₁.clients.erase g = []
      refine List.length_eq_zero_iff.1 ?_
      rw [hClients₁, List.length_erase_of_mem hg, ← hCnt, ← hCnt₁, hLast]
    · cases hStep
      exact hExit

omit [DecidableEq T] [DecidableEq I] in
theorem activate_watch {gs : List G} (h : Watch ctx bp n hits s)
    (hStep : activate gs s = some s') : Watch ctx bp n hits s' := by
  induction gs generalizing s with
  | nil =>
    cases hStep
    exact h
  | cons g gs ih =>
    simp only [activate] at hStep
    split at hStep
    · cases hStep
    have hConds (g' : G) : ((s.setReq g { s.req g with
        locActive := (s.req g).locPosted
        locPosted := {} }).req g').conds = (s.req g').conds := by
      by_cases hg : g' = g
      · subst hg
        simp [State.setReq]
      · simp [State.setReq, Function.update_of_ne hg]
    refine ih ?_ hStep
    refine ⟨{ h.toClean with }, fun g' c hc hCtx hBp => ?_,
      fun g' c hc hCtx hBp hActive hNot => ?_⟩
    · have hc' : c ∈ (s.req g').conds := hConds g' ▸ hc
      by_cases hg : g' = g
      · exact .inr (List.mem_append_right _ (by simp [hg]))
      · exact (h.linked g' c hc' hCtx hBp).imp (List.mem_erase_of_ne hg).2
          (List.mem_append_left _)
    · have hc' : c ∈ (s.req g').conds := hConds g' ▸ hc
      obtain ⟨hNot₁, hNot₂⟩ := not_or.1 (mt List.mem_append.2 hNot)
      have hActive' : g' ∈ s.active := (List.mem_append.1 hActive).resolve_right hNot₂
      exact h.evaluated g' c hc' hCtx hBp hActive' hNot₁

variable {t : Spec G B}

omit [DecidableEq T] [DecidableEq I] in
theorem enterClients_watch (hFollows : Follows Rel s t)
    (h : Watch ctx bp n hits s) {turns : G → Turn G T B}
    (hGood : ∀ g, (turns g).world.ok ctx bp = true) {gs : List G} (hNodup : gs.Nodup)
    (hGs : ∀ g ∈ gs, g ∈ s.clients) (hStep : enterClients turns gs s = some s') :
    Watch ctx bp n hits s' := by
  induction gs generalizing s t with
  | nil =>
    cases hStep
    exact h
  | cons g gs ih =>
    obtain ⟨s₁, hStep₁, hStep⟩ := Option.bind_eq_some_iff.1 hStep
    have hg := hGs g List.mem_cons_self
    obtain ⟨s₂, t₂, hEq, hFollows₁, hClients⟩ := replantClient_follows hFollows (turns g) hg
    obtain rfl : s₂ = s₁ := Option.some.inj (hEq.symm.trans hStep₁)
    obtain ⟨hNot, hNodup'⟩ := List.nodup_cons.1 hNodup
    refine ih hFollows₁ (replantClient_watch h hFollows.related.1.1.cnt hg (hGood g) hStep₁)
      hNodup' (fun x hx => ?_) hStep
    have hx' := hGs x (List.mem_cons_of_mem _ hx)
    have hne : x ≠ g := fun h => hNot (h ▸ hx)
    rw [hClients]
    split
    · exact (List.mem_erase_of_ne hne).2 hx'
    · exact hx'

/-! ## Contexts that stop -/

/-- Once something has to be posted, it stays so. -/
theorem addConditions_need (w : World T B) (ctx' : T) (stops : List (I × B))
    (conds : List (Cond T B I)) : (addConditions w ctx' stops true conds).1 = true := by
  induction stops generalizing conds with
  | nil => rfl
  | cons stop stops ih =>
    simp only [addConditions, Bool.true_or, if_true]
    split
    · exact ih conds
    · exact ih _

/-- The requests that are recorded are for breakpoints at which the context has stopped; when
nothing has to be posted, those of a good breakpoint have `condition_ok` set. -/
theorem mem_addConditions {ctx' : T} (hGood : w.ok ctx bp = true)
    {stops : List (I × B)} {need : Bool} {conds : List (Cond T B I)}
    (hc : c ∈ (addConditions w ctx' stops need conds).2) (hCtx : c.ctx = ctx) (hBp : c.bp = bp) :
    c ∈ conds ∨ ctx' = ctx ∧ (∃ bi, (bi, bp) ∈ stops) ∧
      ((addConditions w ctx' stops need conds).1 = false → c.conditionOk = true) := by
  induction stops generalizing need conds with
  | nil => exact .inl hc
  | cons stop stops ih =>
    obtain ⟨bi, b⟩ := stop
    have hTail : (ctx' = ctx ∧ (∃ bi, (bi, bp) ∈ stops)) →
        ctx' = ctx ∧ ∃ bi', (bi', bp) ∈ (bi, b) :: stops :=
      fun ⟨hCtx', bi', hMem⟩ => ⟨hCtx', bi', List.mem_cons_of_mem _ hMem⟩
    obtain ⟨hOk, -⟩ : (!w.isDisabled bp && w.admits ctx bp) = true ∧ w.holds ctx bp = true := by
      simpa [World.ok] using hGood
    obtain ⟨hEnabled, hAdmits⟩ : w.isDisabled bp = false ∧ w.admits ctx bp = true := by
      simpa using hOk
    -- the request that is added at the head, and the ones that follow
    have hAdded {need' ok : Bool} (hc : c ∈ (addConditions w ctx' stops need'
          (conds ++ [{ ctx := ctx', bp := b, bi, conditionOk := ok }])).2)
        (hOk : (addConditions w ctx' stops need'
          (conds ++ [{ ctx := ctx', bp := b, bi, conditionOk := ok }])).1 = false →
            ctx' = ctx → b = bp → ok = true) :
        c ∈ conds ∨ ctx' = ctx ∧ (∃ bi', (bi', bp) ∈ (bi, b) :: stops) ∧
          ((addConditions w ctx' stops need'
            (conds ++ [{ ctx := ctx', bp := b, bi, conditionOk := ok }])).1 = false →
              c.conditionOk = true) := by
      rcases ih hc with hOld | ⟨hCtx', hMem, hRest⟩
      · rcases List.mem_append.1 hOld with hOld | hNew
        · exact .inl hOld
        · obtain rfl := List.mem_singleton.1 hNew
          exact .inr ⟨hCtx, ⟨bi, by simp [← hBp]⟩, fun hNone => hOk hNone hCtx hBp⟩
      · obtain ⟨hCtx', hMem'⟩ := hTail ⟨hCtx', hMem⟩
        exact .inr ⟨hCtx', hMem', hRest⟩
    unfold addConditions at hc ⊢
    split at hc
    · rename_i hThere
      rw [if_pos hThere]
      rcases ih hc with hOld | ⟨hCtx', hMem, hRest⟩
      · exact .inl hOld
      · obtain ⟨hCtx', hMem'⟩ := hTail ⟨hCtx', hMem⟩
        exact .inr ⟨hCtx', hMem', hRest⟩
    rename_i hThere
    rw [if_neg hThere]
    split at hc
    · rename_i hSlow
      rw [if_pos hSlow]
      refine hAdded hc fun hNone _ hb => ?_
      have hNot : need = false := by
        by_contra hYes
        rw [Bool.not_eq_false] at hYes
        rw [hYes, addConditions_need] at hNone
        cases hNone
      simp [hNot, hb, hEnabled] at hSlow
    rename_i hFast
    rw [if_neg hFast]
    split at hc
    · rename_i hSlow
      rw [if_pos hSlow]
      refine hAdded hc fun hNone => ?_
      rw [addConditions_need] at hNone
      cases hNone
    · rename_i hQuick
      rw [if_neg hQuick]
      refine hAdded hc fun _ hCtx' hb => ?_
      rw [hCtx', hb]
      exact hAdmits

omit [DecidableEq T] [DecidableEq B] [DecidableEq I] in
theorem mem_postEvaluationRequest (g : G) (job : Job B) (s : State G T B I) :
    g ∈ (postEvaluationRequest g job s).posted := by
  unfold postEvaluationRequest
  split
  · assumption
  · dsimp only
    split
    all_goals exact List.mem_append_right _ (by simp)

theorem evaluateBreakpoint_watch (h : Watch ctx bp n hits s)
    (hGood : w.ok ctx bp = true) {ctx' : T} {g : G} {stops : List (I × B)}
    (hTime : ctx' = ctx → (∃ bi, (bi, bp) ∈ stops) → g ∈ s.active → g ∈ s.clients)
    (callbacks : List (G × Option B)) :
    Watch ctx bp n hits (evaluateBreakpoint w ctx' g stops callbacks s) := by
  unfold evaluateBreakpoint
  dsimp only
  obtain ⟨p, hp⟩ : ∃ p, addConditions w ctx' stops
    (decide (g ∈ s.posted ∨ g ∈ s.active) || decide (0 < s.cacheEnterCnt)) (s.req g).conds = p :=
    ⟨_, rfl⟩
  have hMem {c : Cond T B I} (hc : c ∈ p.2) (hCtx : c.ctx = ctx) (hBp : c.bp = bp) :
      c ∈ (s.req g).conds ∨ ctx' = ctx ∧ (∃ bi, (bi, bp) ∈ stops) ∧
        (p.1 = false → c.conditionOk = true) := by
    rw [← hp] at hc ⊢
    exact mem_addConditions hGood hc hCtx hBp
  rw [hp]
  obtain ⟨s₁, hs₁⟩ : ∃ s₁, s.setReq g { s.req g with conds := p.2 } = s₁ := ⟨_, rfl⟩
  have hSame : Same s s₁ := hs₁ ▸ (silent_setConds s g p.2).same
  have hClean : Clean ctx bp n hits s₁ := hs₁ ▸ { h.toClean with }
  have hOwn : (s₁.req g).conds = p.2 := by simp [← hs₁, State.setReq]
  have hOther (g' : G) (hg : g' ≠ g) : (s₁.req g').conds = (s.req g').conds := by
    simp [← hs₁, State.setReq, Function.update_of_ne hg]
  -- the requests of the group are linked at the end, and were evaluated or are in time
  have hLinked {s₂ : State G T B I} (hPosts : Posts s₁ s₂) (hg : g ∈ s₂.posted ∨ g ∈ s₂.active) :
      Watch ctx bp n hits s₂ := by
    have hActive : s₂.active = s.active := hPosts.kept.active.trans hSame.active
    have hClients : s₂.clients = s.clients := hPosts.kept.clients.trans hSame.clients
    refine ⟨hPosts.clean hClean, fun g' c hc hCtx hBp => ?_,
      fun g' c hc hCtx hBp hIn hNot => ?_⟩
    all_goals
      rw [hPosts.kept.conds] at hc
      by_cases hg' : g' = g
    · exact hg' ▸ hg
    · rw [hOther g' hg'] at hc
      rw [hActive]
      exact (h.linked g' c hc hCtx hBp).imp
        (fun hIn => hPosts.posted g' (hSame.posted ▸ hIn)) id
    · subst hg'
      rw [hOwn] at hc
      rw [hActive] at hIn
      rw [hClients] at hNot
      rcases hMem hc hCtx hBp with hOld | ⟨hCtx', hStop, -⟩
      · exact h.evaluated g' c hOld hCtx hBp hIn hNot
      · exact absurd (hTime hCtx' hStop hIn) hNot
    · rw [hOther g' hg'] at hc
      rw [hActive] at hIn
      rw [hClients] at hNot
      exact h.evaluated g' c hc hCtx hBp hIn hNot
  -- the conditions wait for an evaluation, or are done at once
  rw [hs₁]
  split
  · split
    · rename_i hPosted
      refine hLinked .rfl ?_
      rw [hSame.posted, hSame.active]
      simpa using hPosted
    · exact hLinked (posts_postEvaluationRequest g .condition s₁)
        (.inl (mem_postEvaluationRequest g .condition s₁))
  · rename_i hNone
    have hNone : p.1 = false := by simpa using hNone
    -- nothing was recorded before: the group is not linked
    have hIdle : ¬ (g ∈ s.posted ∨ g ∈ s.active) := fun hLink => by
      rw [← hp, decide_eq_true hLink, Bool.true_or, addConditions_need] at hNone
      cases hNone
    obtain ⟨hDone, hReq⟩ := doneConditions_clean hClean w g p.2 fun c hc hCtx hBp => by
      rcases hMem hc hCtx hBp with hOld | ⟨-, -, hOk⟩
      · exact absurd (h.linked g c hOld hCtx hBp) hIdle
      · exact hOk hNone
    have hEq : doneConditionEvaluation w g s₁ =
        p.2.foldl (fun s c => doneCondition w g c s) s₁ := by rw [doneConditionEvaluation, hOwn]
    rw [hEq]
    have hDoneSame := (silent_foldl (fun s c => silent_doneCondition w g s c) p.2 s₁).same
    have hPosts := posts_postLocations callbacks (p.2.foldl (fun s c => doneCondition w g c s) s₁)
    refine ⟨{ hPosts.clean hDone with }, fun g' c hc hCtx hBp => ?_,
      fun g' c hc hCtx hBp hIn hNot => ?_⟩
    all_goals
      by_cases hg' : g' = g
      · subst hg'
        simp [State.setReq] at hc
      simp only [State.setReq, Function.update_of_ne hg'] at hc
      rw [hPosts.kept.conds, hReq, hOther g' hg'] at hc
    · refine (h.linked g' c hc hCtx hBp).imp (fun hIn => hPosts.posted g' ?_) fun hIn => ?_
      · rw [hDoneSame.posted, hSame.posted]
        exact hIn
      · show g' ∈ (postLocations callbacks _).active
        rw [hPosts.kept.active, hDoneSame.active, hSame.active]
        exact hIn
    · refine h.evaluated g' c hc hCtx hBp ?_ ?_
      · rw [← hSame.active, ← hDoneSame.active, ← hPosts.kept.active]
        exact hIn
      · rw [← hSame.clients, ← hDoneSame.clients, ← hPosts.kept.clients]
        exact hNot

/-! ## Runs -/

omit [DecidableEq T] [DecidableEq I] in
theorem eventReplant_watch (hFollows : Follows Rel s t)
    (h : Watch ctx bp n hits s) {turns : G → Turn G T B}
    (hGood : ∀ g, (turns g).world.ok ctx bp = true) {arg : Nat} {events : List Nat}
    (hEvents : s.events = arg :: events)
    (hStep : eventReplant turns arg { s with events } = some s') :
    Watch ctx bp n hits s' := by
  obtain ⟨⟨hInv, -⟩, hNone⟩ := hFollows.related
  unfold eventReplant at hStep
  split at hStep
  · cases hStep
  rename_i hPosted
  split at hStep
  · cases hStep
    exact { h with }
  rename_i hArg
  split at hStep
  · cases hStep
    exact { h with }
  rename_i hCnt
  obtain ⟨s₁, hActivate, hEnter⟩ := Option.bind_eq_some_iff.1 hStep
  have hClients : s.clients = [] := by
    refine List.length_eq_zero_iff.1 ?_
    rw [← hInv.cnt]
    exact Nat.eq_zero_of_not_pos hCnt
  obtain rfl : events = [] := (stale_iff hInv hEvents).1.1 (not_not.1 hArg)
  have hEq := activate_eq (s := { s with events := [], generationActive := s.generationPosted })
    rfl hInv.nodupPosted (by simp [hNone hClients])
  have hStart : Watch ctx bp n hits
      { s with events := [], generationActive := s.generationPosted } := { h with }
  have hTaken : Watch ctx bp n hits s₁ := activate_watch hStart hActivate
  obtain rfl := Option.some.inj (hActivate.symm.trans hEq)
  have hGs : (({ s with events := [], generationActive := s.generationPosted }).takeOver
      s.posted).active = s.posted := by simp [State.takeOver, hNone hClients]
  have hStarted : Watch ctx bp n hits
      ((({ s with events := [], generationActive := s.generationPosted }).takeOver s.posted).emit
        (.started s.posted)) :=
    { hTaken with
      toClean := hTaken.toClean.extend ⟨[.started s.posted], rfl, by simp [Obs.isConsumed]⟩ rfl }
  rw [hGs] at hEnter
  exact enterClients_watch (start_follows hFollows hPosted hClients) hStarted hGood
    hInv.nodupPosted (by simp [State.takeOver, State.emit, hClients]) hEnter

theorem watch_step (hFollows : Follows Rel s t)
    (h : Watch ctx bp n hits s) {e : Event G T B I} (hTime : InTime ctx bp s e)
    (hGood : e.Sees fun w => w.ok ctx bp = true) (hStep : step s e = some s') :
    Watch ctx bp n hits s' := by
  cases e with
  | location g b =>
    cases hStep
    exact (posts_postLocation g b s).watch h
  | stop w ctx' g stops callbacks =>
    cases hStep
    exact evaluateBreakpoint_watch h hGood
      (fun hCtx ⟨_, hStop⟩ => hTime hCtx (List.mem_map_of_mem hStop)) callbacks
  | dispatch turns =>
    cases hEvents : s.events with
    | nil => simp [step, hEvents] at hStep
    | cons arg events =>
      simp only [step, hEvents] at hStep
      exact eventReplant_watch hFollows h hGood hEvents hStep
  | rerun g turn =>
    simp only [step] at hStep
    split at hStep
    · rename_i hg
      exact replantClient_watch h hFollows.related.1.1.cnt hg hGood hStep
    · cases hStep

/-- No hit is lost. From a moment on at which nothing is recorded for a context and a
breakpoint, the breakpoint is enabled, admits the context and its condition holds, and
whenever the context stops there, either the group is not part of a generation or the client
of the group has not come to its end. Then every request that is used up has `condition_ok`
set, and the hits are counted. -/
theorem hits_not_lost (ctx : T) (bp : B) (es₀ es : List (Event G T B I)) (s₀ s : State G T B I)
    (hEs₀ : Meets step Enabled init es₀) (hRun₀ : run step init es₀ = some s₀)
    (hNone : ∀ g, ∀ c ∈ (s₀.req g).conds, ¬ (c.ctx = ctx ∧ c.bp = bp))
    (hGood : ∀ e ∈ es, e.Sees fun w => w.ok ctx bp = true)
    (hEs : Meets step (fun s e => Enabled s e ∧ InTime ctx bp s e) s₀ es)
    (hRun : run step s₀ es = some s) :
    (∀ o ∈ s.log.drop s₀.log.length, o.Fine ctx bp) ∧
      ∀ b g, s.hitCount b g =
        s₀.hitCount b g + (s.log.drop s₀.log.length).countP (Obs.counts b g) := by
  obtain ⟨s₁, t₀, hRun₁, h₀⟩ := tracks_run (R := Rel)
    (fun s t e (h : Follows Rel s t) (he : Enabled s e) => step_follows h he) init_follows hEs₀
  obtain rfl : s₁ = s₀ := Option.some.inj (hRun₁.symm.trans hRun₀)
  have hWatch₀ : Watch ctx bp s₁.log.length s₁.hitCount s₁ := by
    refine ⟨⟨le_rfl, by simp, by simp⟩, fun g c hc hCtx hBp => ?_, fun g c hc hCtx hBp => ?_⟩
    all_goals exact absurd ⟨hCtx, hBp⟩ (hNone g c hc)
  have hEnd : (∃ t, Follows Rel s t) ∧ Watch ctx bp s₁.log.length s₁.hitCount s := by
    refine run_invariant (P := fun s => (∃ t, Follows Rel s t) ∧
      Watch ctx bp s₁.log.length s₁.hitCount s) ?_ ⟨⟨t₀, h₀⟩, hWatch₀⟩
      (hEs.and (meets_of_forall hGood)) hRun
    rintro s e s' ⟨⟨t, h⟩, hWatch⟩ ⟨⟨hEnabled, hTime⟩, hSees⟩ hStep
    obtain ⟨s₂, t', hEq, h'⟩ := step_follows h hEnabled
    obtain rfl : s₂ = s' := Option.some.inj (hEq.symm.trans hStep)
    exact ⟨⟨t', h'⟩, watch_step h hWatch hTime hSees hStep⟩
  exact ⟨hEnd.2.log, hEnd.2.counted⟩

/-- A context stops at a breakpoint while its group is posted, and again while the client of
the group waits. -/
def timelyRun : List (Event Nat Nat Nat Nat) :=
  [.location 1 none, .stop plainWorld 5 1 [(0, 7)] [],
    .dispatch fun _ => ⟨plainWorld, .misses, [], [], []⟩, .stop plainWorld 6 1 [(0, 7)] [],
    .rerun 1 ⟨plainWorld, .exits, [], [], []⟩]

theorem hits_not_lost_timely :
    ∃ s : State Nat Nat Nat Nat, run step init timelyRun = some s ∧
      (∀ o ∈ s.log.drop 0, o.Fine 6 7) ∧
      ∀ b g, s.hitCount b g = 0 + (s.log.drop 0).countP (Obs.counts b g) := by
  obtain ⟨s, hRun⟩ : ∃ s, run step init timelyRun = some s :=
    Option.isSome_iff_exists.1 (by decide)
  exact ⟨s, hRun, hits_not_lost 6 7 [] timelyRun init s trivial rfl (by simp [init])
    (by simp [timelyRun, Event.Sees, World.ok, plainWorld]) (by decide) hRun⟩

/-- Two groups are replanted. The client of the first one has come to its end when a context
of that group stops; the client of the second one still waits. -/
def lateRun : List (Event Nat Nat Nat Nat) :=
  [.location 1 none, .location 2 none, .dispatch fun _ => ⟨plainWorld, .misses, [], [], []⟩,
    .dispatch fun g => ⟨plainWorld, if g = 1 then .exits else .misses, [], [], []⟩,
    .stop plainWorld 5 1 [(0, 7)] [], .rerun 2 ⟨plainWorld, .exits, [], [], []⟩]

/-- The breakpoint has no condition and admits every context. The request that is recorded for
it is used up with `condition_ok` not set, and the hit is not counted. -/
theorem hit_lost :
    Meets step Enabled init lateRun ∧ (∀ e ∈ lateRun, e.Sees fun w => w.ok 5 7 = true) ∧
      ∃ s : State Nat Nat Nat Nat, run step init lateRun = some s ∧
        .consumed 1 { ctx := 5, bp := 7, bi := 0 } .failed ∈ s.log ∧ s.hitCount 7 1 = 0 := by
  refine ⟨by decide, by simp [lateRun, Event.Sees, World.ok, plainWorld], ?_⟩
  have hEnd : (run step (init : State Nat Nat Nat Nat) lateRun).any (fun s =>
      decide (.consumed 1 { ctx := 5, bp := 7, bi := 0 } .failed ∈ s.log ∧
        s.hitCount 7 1 = 0)) = true := by
    decide
  obtain ⟨s, hRun, hLost⟩ := (Option.any_eq_true _ _).1 hEnd
  exact ⟨s, hRun, of_decide_eq_true hLost⟩

end TcfAgent.Replanting
