import TcfAgent.Services.Relocations

/-!
# Runs of relocations

The entries that were found are applied one after the other, and the value of the last symbol is
left in `sym_value` for an entry with the undefined symbol. The run is compared with one where
nothing is left. Both have a log of the entries and values, from which it is seen where they part.

Main results:

* `relocated_iff` — when the data come from the entries of the offset alone, whatever was relocated
  before.
-/

namespace TcfAgent.Relocations

open TcfAgent.Lib TcfAgent.Lib.Attempt

variable {Data : Type} {s : Section Data} {offset : Word} {r : Rel} {rels : List Rel}
  {t u : State Data}

/-! ## One entry -/

/-- The entry is in the log, and the variables are set from its symbol. -/
def State.withSymbol (t : State Data) (r : Rel) (v : Option Resolved) : State Data where
  symValue := (v.map Resolved.value).getD t.symValue
  data := t.data
  destination := (v.bind Resolved.destination).or t.destination
  runTimeAddr := t.runTimeAddr || (v.map Resolved.runTimeAddr).getD false
  events := t.events ++ [.entry r]

/-- Nothing is left of the symbols before. -/
def State.cleared (t : State Data) : State Data := { t with symValue := 0 }

def State.withValue (t : State Data) : State Data :=
    { t with events := t.events ++ [.value t.symValue] }

def State.withResult (t : State Data) (data : Data) (destination : Option Nat) : State Data :=
  { t.withValue with data := data, destination := destination }

theorem record_run (e : Event) (t : State Data) : record e t =
    (.ok (), { t with events := t.events ++ [e] }) :=
  rfl

theorem relocate_run : relocate s offset r t =
    (setSymbol s r >>= fun _ => applyFunc s offset r) { t with events := t.events ++ [.entry r] } :=
  bind_of_ok (record_run (.entry r) t)

theorem relocate_of_error {e : RelocError} (h : resolve s (symIndex s r) = .error e) :
    relocate s offset r t = (.error (.raise e), { t with events := t.events ++ [.entry r] }) := by
  have hSymbol : setSymbol s r = Attempt.raise e := by rw [setSymbol, h]
  rw [relocate_run, hSymbol]
  exact bind_of_error rfl

variable {v : Option Resolved}

theorem relocate_of_ok (h : resolve s (symIndex s r) = .ok v) :
    relocate s offset r t = applyFunc s offset r (t.withSymbol r v) := by
  have hSymbol :
    setSymbol s r { t with events := t.events ++ [.entry r] } = (.ok (), t.withSymbol r v) := by
    rw [setSymbol, h]
    rcases v with _ | v
    · simp [State.withSymbol, pure_run]
    · rfl
  rw [relocate_run]
  exact bind_of_ok hSymbol

theorem relocateAlone_run : relocateAlone s offset r t = relocate s offset r t.cleared :=
  bind_of_ok rfl

theorem applyFunc_of_exec (h : s.type ≠ .rel) : applyFunc s offset r t = (.ok (), t) := by
  rw [applyFunc, if_pos h]
  rfl

theorem applyFunc_of_none (h : s.type = .rel) (hFunc : s.func = none) :
    applyFunc s offset r t = (.error (.raise .unsupportedMachine), t) := by
  rw [applyFunc, if_neg (not_not.2 h), hFunc]
  rfl

/-- What the function of the machine leaves. -/
def applied (t : State Data) : Except RelocError (Data × Option Nat) →
    Except (Stop RelocError) Unit × State Data
  | .error e => (.error (.raise e), t.withValue)
  | .ok (data, destination) => (.ok (), t.withResult data destination)

theorem applyFunc_of_some {func} (h : s.type = .rel) (hFunc : s.func = some func) :
    applyFunc s offset r t =
      applied t (func offset (relocType s r) (relocAddend s r) t.symValue t.data
        t.destination) := by
  rw [applyFunc, if_neg (not_not.2 h), hFunc]
  refine (bind_of_ok (get_run t)).trans ((bind_of_ok (record_run (.value t.symValue) t)).trans ?_)
  rcases func offset (relocType s r) (relocAddend s r) t.symValue t.data
    t.destination with e | ⟨data, destination⟩
  · rfl
  · rfl

/-! ## All entries -/

section

variable {p : Rel → Attempt (State Data) RelocError Unit}

theorem relocateAll_of_ok (h : p r t = (.ok (), u)) :
    relocateAll p (r :: rels) t = relocateAll p rels u :=
  bind_of_ok h

theorem relocateAll_of_error {e : Stop RelocError} (h : p r t = (.error e, u)) :
    relocateAll p (r :: rels) t = (.error e, u) :=
  bind_of_error h

theorem relocateAll_events (hStep : ∀ r t, t.events <+: (p r t).2.events) :
    t.events <+: (relocateAll p rels t).2.events := by
  induction rels generalizing t with
  | nil => exact List.prefix_rfl
  | cons r rels ih =>
    rcases h : p r t with ⟨e | ⟨⟩, u⟩
    · rw [relocateAll_of_error h, ← h]
      exact hStep r t
    · rw [relocateAll_of_ok h]
      have hNext : t.events <+: u.events := by simpa [h] using hStep r t
      exact hNext.trans ih

end

theorem applied_events (x : Except RelocError (Data × Option Nat)) :
    (applied t x).2.events = t.events ++ [.value t.symValue] := by
  rcases x with e | ⟨data, destination⟩
  · rfl
  · rfl

/-- The log only grows. -/
theorem relocate_events (r : Rel) (t : State Data) :
    t.events <+: (relocate s offset r t).2.events := by
  rcases h : resolve s (symIndex s r) with e | v
  · rw [relocate_of_error h]
    exact List.prefix_append ..
  · rw [relocate_of_ok h]
    have hEntry : t.events <+: (t.withSymbol r v).events := List.prefix_append ..
    by_cases hType : s.type = .rel
    · rcases hFunc : s.func with _ | func
      · rw [applyFunc_of_none hType hFunc]
        exact hEntry
      · rw [applyFunc_of_some hType hFunc, applied_events]
        exact hEntry.trans (List.prefix_append ..)
    · rw [applyFunc_of_exec hType]
      exact hEntry

theorem relocateAlone_events (r : Rel) (t : State Data) :
    t.events <+: (relocateAlone s offset r t).2.events := by
  rw [relocateAlone_run]
  exact relocate_events r t.cleared

/-! ## With and without what is left -/

/-- The value that is logged for the first entry is in the log of the whole run. -/
theorem value_logged (rels : List Rel) {p : Rel → Attempt (State Data) RelocError Unit}
    {t' : State Data}
    {x : Except RelocError (Data × Option Nat)} (hStep : ∀ r t, t.events <+: (p r t).2.events)
    (h : p r t' = applied t x) :
    t.events ++ [.value t.symValue] <+: (relocateAll p (r :: rels) t').2.events := by
  rw [← applied_events x]
  rcases hApplied : applied t x with ⟨e | ⟨⟩, u⟩
  · rw [relocateAll_of_error (h.trans hApplied)]
  · rw [relocateAll_of_ok (h.trans hApplied)]
    exact relocateAll_events hStep

theorem value_eq_of_prefix {log events : List Event} {w w' : Word}
    (h : log ++ [.value w] <+: events)
    (h' : log ++ [.value w'] <+: events) : w = w' := by
  have hLength : (log ++ [Event.value w]).length = (log ++ [Event.value w']).length := by simp
  have hSame := (List.prefix_of_prefix_length_le h h' hLength.le).eq_of_length hLength
  simpa using hSame

theorem alone_symValue :
    (t.cleared.withSymbol r v).symValue = (t.withSymbol r v).symValue ↔
      (v = none → some t.symValue = some 0) := by
  rcases v with _ | v
  · exact ⟨fun h _ => congrArg some h.symm, fun h => (Option.some.inj (h rfl)).symm⟩
  · exact ⟨fun _ hNone => absurd hNone (Option.some_ne_none v), fun _ => rfl⟩

theorem alone_eq
    (h : (t.cleared.withSymbol r v).symValue = (t.withSymbol r v).symValue) :
    t.cleared.withSymbol r v = t.withSymbol r v := by
  rw [State.mk.injEq]
  exact ⟨h, rfl, rfl, rfl, rfl⟩

/-- The run from a value of the last symbol is the one with nothing left exactly when an entry with
the undefined symbol finds the value 0. -/
theorem alike_iff (w : Word) :
    outcome (relocateAll (relocate s offset) rels t) =
        outcome (relocateAll (relocateAlone s offset) rels { t with symValue := w }) ↔
      ValuesOk s offset (some t.symValue) t.data t.destination rels := by
  induction rels generalizing t w with
  | nil => exact ⟨fun _ => trivial, fun _ => rfl⟩
  | cons r rels ih =>
    have hAlone : relocateAlone s offset r { t with symValue := w } =
        relocate s offset r t.cleared := relocateAlone_run
    rw [ValuesOk]
    rcases h : resolve s (symIndex s r) with e | v
    · have hCode : relocate s offset r t = _ := relocate_of_error h
      rw [relocate_of_error h] at hAlone
      rw [relocateAll_of_error hCode, relocateAll_of_error hAlone]
      exact ⟨fun _ => trivial, fun _ => rfl⟩
    · have hCode : relocate s offset r t = _ := relocate_of_ok h
      rw [relocate_of_ok h] at hAlone
      dsimp only
      have hLast :
        (v.map Resolved.value).or (some t.symValue) = some (t.withSymbol r v).symValue := by
        rcases v with _ | v
        · rfl
        · rfl
      rw [hLast]
      by_cases hType : s.type = .rel
      · rw [if_neg (not_not.2 hType)]
        rcases hFunc : s.func with _ | func
        · rw [applyFunc_of_none hType hFunc] at hCode hAlone
          rw [relocateAll_of_error hCode, relocateAll_of_error hAlone]
          exact ⟨fun _ => trivial, fun _ => rfl⟩
        · rw [applyFunc_of_some hType hFunc] at hCode hAlone
          -- the log of symbol values tells both runs apart
          have hLogged (hOutcome : outcome (relocateAll (relocate s offset) (r :: rels) t) =
              outcome (relocateAll (relocateAlone s offset) (r :: rels) { t with symValue := w })) :
              (t.cleared.withSymbol r v).symValue = (t.withSymbol r v).symValue := by
            have hEvents : (relocateAll (relocate s offset) (r :: rels) t).2.events = _ :=
              congrArg (fun o => o.2.2.2.2) hOutcome
            have hLog := value_logged rels relocate_events hCode
            rw [hEvents] at hLog
            exact value_eq_of_prefix (value_logged rels relocateAlone_events hAlone) hLog
          dsimp only
          by_cases hSame : (t.cleared.withSymbol r v).symValue = (t.withSymbol r v).symValue
          · rw [and_iff_right (alone_symValue.1 hSame)]
            rw [alone_eq hSame] at hAlone
            rcases hRun : func offset (relocType s r) (relocAddend s r) (t.withSymbol r v).symValue
                (t.withSymbol r v).data (t.withSymbol r v).destination with e | ⟨data, destination⟩
            · have hExpected : func offset (relocType s r) (relocAddend s r)
                  ((some (t.withSymbol r v).symValue).getD 0) t.data
                  ((v.bind Resolved.destination).or t.destination) = .error e := hRun
              rw [hRun] at hCode hAlone
              rw [relocateAll_of_error hCode, relocateAll_of_error hAlone, hExpected]
              exact ⟨fun _ => trivial, fun _ => rfl⟩
            · have hExpected : func offset (relocType s r) (relocAddend s r)
                  ((some (t.withSymbol r v).symValue).getD 0) t.data
                  ((v.bind Resolved.destination).or t.destination) = .ok (data, destination) := hRun
              rw [hRun] at hCode hAlone
              rw [relocateAll_of_ok hCode, relocateAll_of_ok hAlone, hExpected]
              exact ih (t := (t.withSymbol r v).withResult data destination) _
          · exact ⟨fun h => absurd (hLogged h) hSame, fun h => absurd (alone_symValue.2 h.1) hSame⟩
      · rw [if_pos hType]
        rw [applyFunc_of_exec hType] at hCode hAlone
        rw [relocateAll_of_ok hCode, relocateAll_of_ok hAlone]
        exact ih (t := t.withSymbol r v) _

/-! ## Whatever is left -/

section

variable {data : Data} {destination : Option Nat}

/-- Where an entry needs no value that was left by another one, any other value will do. -/
theorem valuesOk_change {v v' : Option Word} (hNot : v ≠ some 0)
    (h : ValuesOk s offset v data destination rels) :
    ValuesOk s offset v' data destination rels := by
  induction rels generalizing data destination with
  | nil => trivial
  | cons r rels ih =>
    rw [ValuesOk] at h ⊢
    rcases hResolved : resolve s (symIndex s r) with e | _ | v
    · trivial
    · rw [hResolved] at h
      dsimp only at h ⊢
      by_cases hType : s.type ≠ .rel
      · rw [if_pos hType] at h ⊢
        exact ih h
      · rw [if_neg hType] at h ⊢
        rcases hFunc : s.func with _ | func
        · trivial
        · rw [hFunc] at h
          exact absurd (h.1 rfl) hNot
    · rw [hResolved] at h
      simpa using h

end

/-- A section of an executable file with one entry, the symbol of which has the value 1. -/
def oneSection : Section Data where
  elf64 := true
  rela := true
  type := .exec
  addr := 0
  entries := [⟨0, 0x100000000, 0⟩]
  symbol := fun _ => .ok ⟨shnAbs, none, 1⟩
  symbolAddress := none
  func := none

theorem lookup_oneSection : lookup (oneSection : Section Data) 0 = some [⟨0, 0x100000000, 0⟩] := by
  have hZones : zones (oneSection : Section Data) = [[⟨0, 0x100000000, 0⟩]] := rfl
  rw [lookup, hZones]
  simp [lookupZones, bisect, spread, offs, oneSection]

theorem symValueAfter_one (data : Data) : symValueAfter [⟨oneSection, 0, data⟩] = 1 := by
  have hCall :
    drlRelocateInContext ⟨oneSection, 0, data⟩ =
    relocateAll (relocate oneSection 0) [⟨0, 0x100000000, 0⟩] := by
    rw [drlRelocateInContext, lookup_oneSection]
  rw [symValueAfter, List.foldl, hCall]
  rfl

/-- Two entries of the offset 8, with one of the offset 0 between them. -/
def scattered : Call Nat where
  elfSection := { (oneSection : Section Nat) with
    type := .rel
    entries := [⟨8, 0x100000000, 1⟩, ⟨0, 0x100000000, 2⟩, ⟨8, 0x100000000, 4⟩]
    func := some fun _ _ addend value data destination =>
      .ok (data + (value + addend).toNat, destination) }
  offset := 8
  data := 0

/-- One entry with the undefined symbol. -/
def undefinedSymbol : Call Nat := { scattered with
  elfSection := { scattered.elfSection with entries := [⟨8, 0, 1⟩] } }

end TcfAgent.Relocations
