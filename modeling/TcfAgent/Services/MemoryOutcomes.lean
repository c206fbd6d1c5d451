import TcfAgent.Services.MemoryCleanup

/-!
# The commands of the memory service that clean up

A command gives its client to the cache, which runs it again after a miss. Before that an exception
closes the channel, and leaves the buffer behind when it is allocated.

Main results:

* `attempts_iff` — the runs of a client, up to the one that does not miss;
* `command_iff`  — the commands that clean up.
-/

namespace TcfAgent.MemoryService

open TcfAgent.Lib TcfAgent.Lib.Program TcfAgent.JsonText TcfAgent.JsonBuffers

/-! ## Commands -/

theorem concludes_iff {p : Action Unit} {n : Nat} {s t : State} {r : Except Halt Unit}
    (h : p.run n s = some (r, t)) : Concludes p s ↔ r = .error .miss ∨ r = .ok ⟨⟩ ∧
    Clean t.log := by
  constructor
  · rintro ⟨m, r', t', hRun, hEnd⟩
    obtain ⟨rfl, rfl⟩ := Prod.mk.inj (run_unique h hRun)
    exact hEnd
  · exact fun hEnd => ⟨n, r, t, h, hEnd⟩

theorem concludes_of_run_eq {p q : Action Unit} {n : Nat} {s t : State}
    (h : ∀ m, n ≤ m → p.run m s = q.run m t) : Concludes p s ↔ Concludes q t := by
  constructor
  · rintro ⟨m, r, u, hRun, hEnd⟩
    refine ⟨max n m, r, u, ?_, hEnd⟩
    rw [← h _ (Nat.le_max_left n m)]
    exact p.steady (Nat.le_max_right n m) hRun
  · rintro ⟨m, r, u, hRun, hEnd⟩
    refine ⟨max n m, r, u, ?_, hEnd⟩
    rw [h _ (Nat.le_max_left n m)]
    exact q.steady (Nat.le_max_right n m) hRun

/-- The runs of a client, up to the one that does not miss. -/
theorem attempts_iff {client : Attempt → Action Unit} (misses good : Attempt → Prop)
    {P : List Effect → Prop}
    (hMisses : ∀ a log, P log → misses a →
      ∃ n t, (client a).run n ⟨0, log⟩ = some (.error .miss, t) ∧ P t.log)
    (hGood : ∀ a log, P log → ¬ misses a → good a → Cleans (client a) ⟨0, log⟩)
    (hBad : ∀ a log, P log → ¬ misses a → ¬ good a → Litters (client a) ⟨0, log⟩)
    {as : List Attempt} {s : State} (hStart : P s.log) :
    Concludes (attempts client as) s ↔ Last misses good as := by
  induction as generalizing s with
  | nil => exact iff_of_true ⟨0, _, s, rfl, .inl rfl⟩ trivial
  | cons a as ih =>
    have hRun : ∀ n, (do
        modify fun s : State => { s with turn := 0 }
        client a : Action Unit).run n s = (client a).run n ⟨0, s.log⟩ := fun n => rfl
    -- an attempt that misses is made again, any other one is the last
    by_cases hMiss : misses a
    · obtain ⟨n, t, hClient, hNext⟩ := hMisses a s.log hStart hMiss
      have hAgain : Concludes (attempts client (a :: as)) s ↔ Concludes (attempts client as) t := by
        refine concludes_of_run_eq (n := n) fun m hm => ?_
        exact run_catching_error ((hRun m).trans ((client a).steady hm hClient))
      rw [hAgain, ih hNext, Last]
      exact ⟨fun hLast => ⟨fun _ => hLast, fun hNot => absurd hMiss hNot⟩, fun hLast =>
        hLast.1 hMiss⟩
    · have hLast : Last misses good (a :: as) ↔ good a :=
        ⟨fun hLast => hLast.2 hMiss, fun hIs => ⟨fun hNot => absurd hNot hMiss, fun _ => hIs⟩⟩
      rw [hLast]
      by_cases hIs : good a
      · obtain ⟨n, t, hClient, hClean⟩ := hGood a s.log hStart hMiss hIs
        exact iff_of_true ⟨n, _, t, run_catching_ok ((hRun n).trans hClient),
          .inr ⟨rfl, hClean⟩⟩ hIs
      · refine iff_of_false ?_ hIs
        -- the attempt never ends, or leaves something behind
        rcases hBad a s.log hStart hMiss hIs with hNever | ⟨n, r, t, hClient, hNotMiss, hDirty⟩
        · rintro ⟨n, r, t, hAttempts, -⟩
          have hNone : Never (attempts client (a :: as)) s :=
            Never.catching fun n => (hRun n).trans (hNever n)
          rw [hNone n] at hAttempts
          cases hAttempts
        · rcases r with (- | - | -) | u
          · exact absurd rfl hNotMiss
          · -- the exception is caught by the cache
            rw [concludes_iff (run_catching_error ((hRun n).trans hClient))]
            simp [hDirty]
          · rw [concludes_iff (run_catching_error ((hRun n).trans hClient))]
            simp
          · have hAttempts : (attempts client (a :: as)).run n s = some (.ok u, t) :=
              run_catching_ok ((hRun n).trans hClient)
            rw [concludes_iff hAttempts]
            simp [hDirty]

section

variable {cmd : Cmd} {text rest : Text} {args : MemoryCommandArgs} {as : List Attempt} {n : Nat}
  {s t : State}

theorem command_raised (h : ∀ n, (readCommandArgs cmd text).run n s = some (.error .raised, t)) :
    (command cmd text as).run n s = some (.ok ⟨⟩, { t with log := t.log ++ [.protocolError] }) := by
  have hMap : (some <$> readCommandArgs cmd text).run n s = some (.error .raised, t) :=
    run_bind_error (h n)
  rw [command, run_bind_ok ((run_catching_error hMap).trans (run_pure none n t))]
  rfl

/-- The clients of a command that has its arguments. -/
def clients (cmd : Cmd) (args : MemoryCommandArgs) (r : ReadState) (as : List Attempt) :
    Action Unit :=
  match cmd with
  | .get => attempts (memoryGetCacheClient args) as
  | .set => attempts (memorySetCacheClient args r) as
  | .fill => do
    let args ← loop growRound args
    attempts (memoryFillCacheClient args) as

theorem command_reads {r : ReadState}
    (h : ∀ n, (readCommandArgs cmd text).run n s = some (.ok (args, r), t)) :
    (command cmd text as).run n s = (clients cmd args r as).run n t := by
  have hMap : (some <$> readCommandArgs cmd text).run n s = some (.ok (some (args, r)), t) := by
    exact (run_bind_ok (h n)).trans rfl
  rw [command, run_bind_ok (run_catching_ok hMap)]
  rfl

theorem readCommandArgs_header (h : readHeader text = none) :
    (readCommandArgs cmd text).run n s = some (.error .raised, s) := by
  rw [readCommandArgs, h]
  rfl

theorem readCommandArgs_set (h : readHeader text = some (args, rest)) :
    (readCommandArgs .set text).run n s =
      match jsonReadBinaryStart rest with
      | .error (.raise _) => some (.error .raised, s)
      | .error .fault => some (.error .fault, s)
      | .ok r =>
        match jsonReadBinaryData bufSize r with
        | .error (.raise _) => some (.error .raised, { s with log := s.log ++ [.alloc] })
        | .error .fault => some (.error .fault, { s with log := s.log ++ [.alloc] })
        | .ok (buf, r) => some (.ok ({ args with buf := buf, max := bufSize }, r),
            { s with log := s.log ++ [.alloc, .lock] }) := by
  rw [readCommandArgs, h]
  rcases hStart : jsonReadBinaryStart rest with (e | -) | r
  · simp [ofOption, ofResult, hStart]
  · simp [ofOption, ofResult, hStart]
  · rcases hData : jsonReadBinaryData bufSize r with (e | -) | ⟨buf, r'⟩
    · simp [ofOption, ofResult, hStart, hData]
    · simp [ofOption, ofResult, hStart, hData]
    · simp [ofOption, ofResult, hStart, hData]

theorem readCommandArgs_get (h : readHeader text = some (args, rest)) :
    (readCommandArgs .get text).run n s =
      if rest = [] then
        some (.ok (
          { args with max := if bufSize < args.size.toNat then bufSize else args.size.toNat },
          ⟨.binary, 0, 0, [], rest⟩), { s with log := s.log ++ [.alloc, .lock] })
      else some (.error .raised, { s with log := s.log ++ [.alloc] }) := by
  rw [readCommandArgs, h]
  by_cases hRest : rest = []
  · simp [ofOption, testEom, hRest]
  · simp [ofOption, testEom, hRest]

theorem readCommandArgs_fill (h : readHeader text = some (args, rest)) :
    (readCommandArgs .fill text).run n s =
      match readFill rest with
      | none => some (.error .raised,
          { s with log := s.log ++ if callsBack rest then [.alloc] else [] })
      | some values => some (.ok (values.foldl readMemoryFillArrayCb args, ⟨.binary, 0, 0, [], []⟩),
          { s with log := s.log ++ ((if callsBack rest then [.alloc] else []) ++ [.lock]) }) := by
  rw [readCommandArgs, h]
  rcases hArray : jsonReadArray readUlong rest with - | ⟨values, rest'⟩
  · by_cases hBack : callsBack rest
    · simp [ofOption, hArray, hBack, readFill]
    · simp [ofOption, hArray, hBack, readFill]
  · rcases hTest : jsonTestChar rest' 0 with - | rest''
    · by_cases hBack : callsBack rest
      · simp [ofOption, hArray, hBack, readFill, hTest]
      · simp [ofOption, hArray, hBack, readFill, hTest]
    · by_cases hBack : callsBack rest <;> by_cases hEom : rest'' = []
      · simp [ofOption, hArray, hBack, readFill, hTest, testEom, hEom]
      · simp [ofOption, hArray, hBack, readFill, hTest, testEom, hEom]
      · simp [ofOption, hArray, hBack, readFill, hTest, testEom, hEom]
      · simp [ofOption, hArray, hBack, readFill, hTest, testEom, hEom]

theorem start_ne_fault : jsonReadBinaryStart rest ≠ .error .fault := by
  intro h
  unfold jsonReadBinaryStart at h
  split at h
  · rename_i rest' hText
    rcases hSize : jsonReadUlong rest' with e | ⟨size, rest''⟩
    · rw [hSize] at h
      obtain rfl : e = .fault := Except.error.inj h
      unfold jsonReadUlong JsonBuffers.jsonReadUint64 at hSize
      split at hSize
      · split at hSize
        · cases hSize
        · cases hSize
      · cases hSize
    · rw [hSize] at h
      rcases rest'' with - | ⟨c, rest''⟩
      · cases h
      · by_cases hChar : c = 41
        · simp [testChar, hChar, bind, Except.bind, pure, Except.pure] at h
        · simp [testChar, hChar, bind, Except.bind] at h
  · cases h
  · rename_i rest' hText
    unfold readNull at h
    split at h
    · cases h
    · cases h
  · cases h

theorem readElements_ne_nil {α : Type} {callBack : Text → Option (α × Text)} {fuel : Nat}
    {values : List α}
    {rest' : Text} (h : readElements callBack fuel rest = some (values, rest')) : values ≠ [] := by
  rcases fuel with - | fuel
  · cases h
  · obtain ⟨⟨a, text⟩, -, hNext⟩ := Option.bind_eq_some_iff.1 h
    dsimp only at hNext
    split at hNext
    · obtain ⟨⟨as, text'⟩, -, hMore⟩ := Option.bind_eq_some_iff.1 hNext
      rw [← (Prod.mk.inj (Option.some.inj hMore)).1]
      exact List.cons_ne_nil _ _
    · rw [← (Prod.mk.inj (Option.some.inj hNext)).1]
      exact List.cons_ne_nil _ _
    · cases hNext

/-- The call back is called exactly when there is an element. -/
theorem callsBack_iff {values : List (BitVec 64)} (h : readFill rest = some values) :
    callsBack rest = true ↔ values ≠ [] := by
  obtain ⟨⟨values', rest'⟩, hArray, hEnd⟩ := Option.bind_eq_some_iff.1 h
  obtain ⟨rest'', hTest, hEom⟩ := Option.bind_eq_some_iff.1 hEnd
  obtain rfl : values' = values := by
    split at hEom
    · exact Option.some.inj hEom
    · cases hEom
  unfold jsonReadArray at hArray
  unfold callsBack
  split at hArray
  · rename_i hText
    rw [hText, ← (Prod.mk.inj (Option.some.inj hArray)).1]
    simp
  · rename_i text hText
    rw [hText]
    split at hArray
    · rename_i hClose
      rw [← (Prod.mk.inj (Option.some.inj hArray)).1]
      simp [hClose]
    · rename_i hOpen
      refine iff_of_true ?_ (readElements_ne_nil hArray)
      show decide ((text.dropWhile JsonString.isSpace).head? ≠ some 93) = true
      rw [decide_eq_true_eq]
      intro hHead
      obtain ⟨rest', hClose⟩ := List.head?_eq_some_iff.1 hHead
      exact hOpen rest' hClose
  · cases hArray

theorem growLoop_run (hBuf : args.buf ≠ [] ∨ args.size = 0) :
    (loop growRound args).run (args.max + 1) s =
      some (.ok { args with buf := growBuf args.size.toNat args.max args.buf }, s) := by
  have hLoop : ∀ k buf, (buf ≠ [] ∨ args.size = 0) → args.max - buf.length < k →
      loopFrom growRound (args.max + 1) k { args with buf := buf } s =
        some (.ok { args with buf := growBuf args.size.toNat args.max buf }, s) := by
    intro k
    induction k with
    | zero =>
      intro buf hBuf hk
      exact absurd hk (Nat.not_lt_zero _)
    | succ k ih =>
      intro buf hBuf hk
      by_cases hMore : buf.length < args.size.toNat ∧ buf.length ≤ args.max / 2
      · have hSome : buf ≠ [] := by
          rcases hBuf with hSome | hZero
          · exact hSome
          · rw [hZero] at hMore
            exact absurd hMore.1 (Nat.not_lt_zero _)
        have hLength := List.length_pos_of_ne_nil hSome
        have hRound : (growRound { args with buf := buf }).run (args.max + 1) s =
            some (.ok (.inl { args with buf := buf ++ buf }), s) := by
          simp [growRound, hMore.1, hMore.2, hSome]
        rw [loopFrom_continue hRound, growBuf, if_pos ⟨hSome, hMore⟩]
        refine ih (buf ++ buf) (.inl (by simp [hSome])) ?_
        rw [List.length_append]
        omega
      · rw [growBuf, if_neg fun hAll => hMore hAll.2]
        refine loopFrom_break ?_
        rw [growRound, if_neg hMore]
        rfl
  exact hLoop _ args.buf hBuf (by omega)

theorem growBuf_ne_nil {size max : Nat} {buf : List UInt8} (h : buf ≠ []) :
    growBuf size max buf ≠ [] := by
  fun_induction growBuf size max buf with
  | case1 buf hMore ih => exact ih (by simp [h])
  | case2 buf hEnd => exact h

/-- What stands in the arguments before the data are read. -/
theorem readHeader_some (h : readHeader text = some (args, rest)) :
    args.buf = [] ∧ args.max = 0 ∧ IntSize args := by
  simp only [readHeader, Option.bind_eq_bind, Option.bind_eq_some_iff] at h
  obtain ⟨⟨id, text1⟩, -, text2, -, ⟨addr, text3⟩, -, text4, -, ⟨wordSize, text5⟩, -, text6, -,
    ⟨size, text7⟩, -,
    text8, -, ⟨mode, text9⟩, -, text10, -, hArgs⟩ := h
  cases hArgs
  refine ⟨rfl, rfl, ?_⟩
  show (size.signExtend 64).toNat < 2 ^ 31 ∨ 2 ^ 32 ≤ (size.signExtend 64).toNat
  have hSize := size.isLt
  rw [BitVec.toNat_signExtend, BitVec.msb_eq_decide, BitVec.toNat_setWidth]
  split
  · rename_i hNegative
    omega
  · rename_i hPositive
    have hPositive := of_decide_eq_false (Bool.eq_false_iff.2 hPositive)
    omega

theorem running_start (allocated : Bool) (near : Address → Prop) :
    Running allocated near none ((if allocated then [.alloc] else []) ++ [.lock]) := by
  rcases allocated with - | -
  · exact ⟨by decide, by decide, ⟨by decide, by decide, rfl⟩, by simp, rfl,
      fun p hp => absurd hp List.not_mem_nil⟩
  · exact ⟨by decide, by decide, ⟨by decide, by decide, rfl⟩, by simp, rfl,
      fun p hp => absurd hp List.not_mem_nil⟩

/-- Without a buffer the channel is closed, and that is all. -/
theorem clean_protocolError : Clean [.protocolError] :=
  ⟨⟨by decide, by decide⟩, ⟨by decide, by decide⟩, .inl ⟨by decide, rfl⟩,
    fun p hp => absurd hp List.not_mem_nil⟩

/-- The buffer is left. -/
theorem not_clean_alloc : ¬ Clean [.alloc, .protocolError] := by
  intro hClean
  exact absurd hClean.buffer.1 (by decide)

/-- `set` cleans up when the first chunk of the data can be read, and the client does. -/
theorem commandSet_iff (h : readHeader text = some (args, rest)) :
    CleansUp .set text as ↔ GoodCommand .set args rest as := by
  have hRead : ∀ n, (readCommandArgs .set text).run n ⟨0, []⟩ = _ := fun n => readCommandArgs_set h
  unfold CleansUp GoodCommand
  rcases hStart : jsonReadBinaryStart rest with (f | -) | r
  · rw [hStart] at hRead
    exact iff_of_true ⟨0, _, _, command_raised hRead, .inr ⟨rfl, clean_protocolError⟩⟩ fun s hs =>
      by cases hs
  · exact absurd hStart start_ne_fault
  · have hSound := sound_start hStart
    have hMax : 0 < bufSize := by decide
    rcases readData_progress hSound hMax with ⟨f, hData⟩ | ⟨buf, r', hData, hSound', -⟩
    · simp only [hStart, hData] at hRead
      rw [concludes_iff (command_raised (n := 0) hRead)]
      refine iff_of_false ?_ ?_
      · rintro (hMiss | ⟨-, hClean⟩)
        · cases hMiss
        · exact not_clean_alloc hClean
      · intro hGood
        obtain ⟨buf, r', hOk, -⟩ := hGood r rfl
        rw [hData] at hOk
        cases hOk
    · simp only [hStart, hData] at hRead
      rw [concludes_of_run_eq (n := 0) fun n _ => command_reads hRead]
      have hClients : Concludes (clients .set { args with buf := buf, max := bufSize } r' as)
          ⟨0, [.alloc, .lock]⟩ ↔
          Last (fun a => MissesFirst (checkWrite args (buf ≠ []) a) (buf ≠ []) a)
            (GoodSet { args with buf := buf, max := bufSize } r') as := by
        refine attempts_iff _ _ (P := Running true (fun _ => False) none) ?_ ?_ ?_
          (running_start true _)
        · intro a log hLog hMiss
          obtain ⟨n, t, hRun, hSame⟩ :=
            @setClient_misses log { args with buf := buf, max := bufSize } a r' hMiss
          exact ⟨n, t, hRun, by rwa [hSame]⟩
        · exact fun a log hLog hFinds hGood => setClient_good hMax hSound' hFinds hGood hLog
        · exact fun a log hLog hFinds hBad => setClient_bad hMax hSound' hFinds hBad hLog
      rw [show ({ turn := 0, log := [] ++ [.alloc, .lock] } : State) =
        ⟨0, [.alloc, .lock]⟩ from rfl, hClients]
      constructor
      · intro hLast s hs
        rw [← Except.ok.inj hs]
        exact ⟨buf, r', hData, hLast⟩
      · intro hGood
        obtain ⟨buf', r'', hOk, hLast⟩ := hGood r rfl
        rw [hData] at hOk
        cases hOk
        exact hLast

theorem last_true {misses : Attempt → Prop} : Last misses (fun _ => True) as := by
  induction as with
  | nil => exact trivial
  | cons a as ih => exact ⟨fun _ => ih, fun _ => trivial⟩

/-- `get` cleans up when nothing follows its arguments. -/
theorem commandGet_iff (h : readHeader text = some (args, rest)) :
    CleansUp .get text as ↔ GoodCommand .get args rest as := by
  have hRead : ∀ n, (readCommandArgs .get text).run n ⟨0, []⟩ = _ := fun n => readCommandArgs_get h
  unfold CleansUp GoodCommand
  by_cases hRest : rest = []
  · simp only [hRest, if_true] at hRead
    refine iff_of_true ?_ hRest
    have hMax : ∀ size : BitVec 64, size ≠ 0 →
        0 < if bufSize < size.toNat then bufSize else size.toNat := by
      intro size hSize
      split
      · decide
      · rw [Nat.pos_iff_ne_zero]
        exact fun hZero => hSize (BitVec.eq_of_toNat_eq hZero)
    rw [concludes_of_run_eq (n := 0) fun n _ => command_reads hRead]
    refine (attempts_iff (fun a => MissesFirst (checkRead args (args.size ≠ 0) a) (args.size ≠ 0) a)
      (fun _ => True) (P := Running true (fun _ => False) none) ?_ ?_ ?_ (running_start true _)).2
        last_true
    · intro a log hLog hMiss
      obtain ⟨n, t, hRun, hSame⟩ := @getClient_misses log
        { args with max := if bufSize < args.size.toNat then bufSize else args.size.toNat } a hMiss
      exact ⟨n, t, hRun, by rwa [hSame]⟩
    · exact fun a log hLog hFinds _ => getClient_good (hMax _) hFinds hLog
    · exact fun a log hLog hFinds hNot => absurd trivial hNot
  · simp only [hRest, if_false] at hRead
    rw [concludes_iff (command_raised (n := 0) hRead)]
    refine iff_of_false ?_ hRest
    rintro (hMiss | ⟨-, hClean⟩)
    · cases hMiss
    · exact not_clean_alloc hClean

theorem clientsFill_iff {r : ReadState} (hInt : IntSize args)
    (hNull : args.buf = [] → args.max = 0) :
    Concludes (clients .fill args r as)
      ⟨0, (if decide (args.max ≠ 0) then [.alloc] else []) ++ [.lock]⟩ ↔
      (args.buf ≠ [] ∨ args.size = 0) ∧
        Last (MissesFill { args with buf := growBuf args.size.toNat args.max args.buf })
          (GoodFill { args with buf := growBuf args.size.toNat args.max args.buf }) as := by
  change Concludes (loop growRound args >>= fun args =>
    attempts (memoryFillCacheClient args) as) _ ↔ _
  by_cases hSome : args.buf ≠ [] ∨ args.size = 0
  · rw [and_iff_right hSome, concludes_of_run_eq (n := args.max + 1) fun n hn =>
      run_bind_ok ((loop growRound args).steady hn (growLoop_run hSome))]
    refine attempts_iff _ _
      (P := Running (args.max ≠ 0) (Within args.addr args.size.toNat) none) ?_ ?_ ?_
      (running_start _ _)
    · exact fun a log hLog hMiss => fillClient_misses hInt hMiss hLog
    · refine fun a log hLog hFinds hGood => fillClient_good hInt ?_ hFinds hGood hLog
      exact hSome.imp_left growBuf_ne_nil
    · exact fun a log _ _ hBad => .inl (fillClient_bad hInt hBad)
  · refine iff_of_false ?_ fun hGood => hSome hGood.1
    rw [not_or, not_not] at hSome
    have hPos : 0 < args.size.toNat := by
      rw [Nat.pos_iff_ne_zero]
      exact fun hNone => hSome.2 (BitVec.eq_of_toNat_eq hNone)
    have hRound : ∀ s, (growRound args).run 1 s = some (.error .fault, s) := by
      intro s
      simp [growRound, hSome.1, hNull hSome.1, hPos]
    rw [concludes_iff (n := 1) (run_bind_error (loopFrom_error (hRound _)))]
    simp

/-- `fill` cleans up when there is a pattern, or nothing to fill, and the client does. -/
theorem commandFill_iff (h : readHeader text = some (args, rest)) :
    CleansUp .fill text as ↔ GoodCommand .fill args rest as := by
  have hRead : ∀ n, (readCommandArgs .fill text).run n ⟨0, []⟩ = _ :=
    fun n => readCommandArgs_fill h
  obtain ⟨hBuf, hZero, hInt⟩ := readHeader_some h
  unfold CleansUp GoodCommand
  rcases hFill : readFill rest with - | values
  · simp only [hFill] at hRead
    rw [concludes_iff (command_raised (n := 0) hRead)]
    by_cases hBack : callsBack rest = true
    · refine iff_of_false ?_ (by simp [hBack])
      rintro (hMiss | ⟨-, hClean⟩)
      · cases hMiss
      · rw [if_pos hBack] at hClean
        exact not_clean_alloc hClean
    · refine iff_of_true (.inr ⟨rfl, ?_⟩) (by simpa using hBack)
      rw [if_neg hBack]
      exact clean_protocolError
  · simp only [hFill] at hRead
    rw [concludes_of_run_eq (n := 0) fun n _ => command_reads hRead]
    obtain ⟨max, hFold, hMax⟩ :=
      foldl_readMemoryFillArrayCb values args (by rw [hBuf, hZero]; exact Nat.le_refl _)
    have hBack : callsBack rest = decide ((values.foldl readMemoryFillArrayCb args).max ≠ 0) := by
      rw [Bool.eq_iff_iff, callsBack_iff hFill, decide_eq_true_eq]
      rcases values with - | ⟨v, values⟩
      · exact iff_of_false (fun hNe => hNe rfl) fun hNe => hNe hZero
      · refine iff_of_true (List.cons_ne_nil _ _) ?_
        rw [hFold]
        exact Nat.ne_of_gt
          (Nat.lt_of_lt_of_le (Nat.succ_pos _) (Nat.le_trans (Nat.le_add_left _ _) hMax))
    have hNull : values = [] → (values.foldl readMemoryFillArrayCb args).max = 0 := by
      rintro rfl
      exact hZero
    rw [hBack]
    dsimp only
    generalize hArgs : values.foldl readMemoryFillArrayCb args = filled at hFold hNull ⊢
    have hPattern : filled.buf ≠ [] ↔ values ≠ [] := by
      rw [hFold, hBuf]
      simp
    have hIntSize : IntSize filled := by
      rw [hFold]
      exact hInt
    rw [← hPattern]
    exact clientsFill_iff hIntSize fun hNil => hNull (not_not.1 fun hNe => hPattern.2 hNe hNil)

/-- A well formed message: one byte is to be filled with the empty pattern. -/
def fillNothing : Text :=
  ascii "\"P1\"" ++ 0 :: ascii "4096" ++ 0 :: ascii "0" ++ 0 :: ascii "1" ++ 0 :: ascii "0" ++ 0 ::
    ascii "[]" ++ [0]

end

end TcfAgent.MemoryService
