import TcfAgent.Services.StreamCommands

/-!
# Runs of the Streams service

All streams together: commands find their stream by the identifier, an owner has a pointer to it.
What a client may send is not limited but for reads of nothing.

Main results

* `Service.step_safe`    — one step finds its assertions true
* `no_assertion_fails`   — and so does every run in which no client asks for nothing
* `not_no_assertion_fails` — a client can ask for nothing
-/

namespace TcfAgent.StreamCommands

open TcfAgent.Lib TcfAgent.JsonString TcfAgent.JsonText TcfAgent.StreamsService

/-! ## Identifiers -/

/-- `strtoul(s, &p, 10)`: the number and the text at `p`. -/
def strtoul (s : Text) : Nat × Text :=
  let t := s.dropWhile isSpace
  let negative := t.head? = some 45
  let t := if t.head? = some 45 ∨ t.head? = some 43 then t.tail else t
  if t.takeWhile isDigit = [] then (0, s)
  else
    let n := digitsValue (t.takeWhile isDigit)
    (if 2 ^ 64 ≤ n then 2 ^ 64 - 1 else if negative then (2 ^ 64 - n) % 2 ^ 64 else n,
      t.dropWhile isDigit)

/-- `str2id`; `STREAM_BASE_ID` is `VS`. -/
def str2id (s : Text) : Option Nat :=
  if s.take 2 = ascii "VS" then
    let (n, rest) := strtoul (s.drop 2)
    if rest = [] then some (n % 2 ^ 32) else none
  else none

/-! ## The service -/

/-- `streams`, `subscriptions` and `id_cnt`. -/
structure Service where
  streams       : List Remote := []
  subscriptions : List Subscription := []
  idCnt         : Nat := 0

/-- `find_client`: where the stream is. -/
def Service.findClient (s : Service) (id : Text) (c : Nat) : Option Nat :=
  (str2id id).bind fun n => s.streams.findIdx? fun r => r.id == n && (r.base.findClient c).isSome

/-- `virtual_stream_find` -/
def Service.findStream (s : Service) (id : Text) : Option Nat :=
  (str2id id).bind fun n => s.streams.findIdx? fun r => r.id == n && !r.base.deleted

/-- A step of one stream. -/
def Service.onStream (s : Service) (i : Nat) (f : Remote → Except Trap Remote) :
    Except Trap Service :=
  match s.streams[i]? with
  | none => .ok s
  | some r => do return { s with streams := s.streams.set i (← f r) }

/-- A command for the stream that is found; otherwise it is answered with an error. -/
def Service.onFound (s : Service) (i : Option Nat) (f : Remote → Except Trap Remote) :
    Except Trap Service :=
  match i with
  | none => .ok s
  | some i => s.onStream i f

/-- What a command leaves of the stream. -/
def stateOf {α : Type} (x : Except Trap (α × Remote)) : Except Trap Remote := x.map Prod.snd

/-- `virtual_stream_create` -/
def Service.create (s : Service) (type : List UInt8) (bufLen : Nat) (access : Access) : Service :=
  let base := virtualStreamCreate s.subscriptions type bufLen
  { s with
    streams := s.streams ++ [{ id := s.idCnt % 2 ^ 32, access, base }]
    idCnt := s.idCnt + 1 }

/-- The clients send commands, the owners call functions of the service, and posted events are
handled. `fresh` is what the memory of a block held before. -/
inductive Event where
  | subscribe (c : Nat) (type : List UInt8)
  | unsubscribe (c : Nat) (type : List UInt8)
  | read (c : Nat) (token : List UInt8) (id : Text) (size : Nat)
  | write (c : Nat) (token : List UInt8) (id : Text) (size : Nat) (text : Text)
  | eos (c : Nat) (token : List UInt8) (id : Text)
  | connect (c : Nat) (id : Text)
  | disconnect (c : Nat) (id : Text)
  | channelClosed (c : Nat)
  | create (type : List UInt8) (bufLen : Nat) (access : Access)
  | addData (i : Nat) (buf : List UInt8) (eos : Bool)
  | getData (i : Nat) (bufSize : Nat) (fresh : Nat → UInt8)
  | delete (i : Nat)
  | deleteStream (i : Nat)
  | notifySpaceAvailable (i : Nat)
  | notifyDataAvailable (i : Nat)

/-- One step of the service. -/
def Service.step (s : Service) : Event → Except Trap Service
  | .subscribe c type => .ok { s with subscriptions := command s.subscriptions (.subscribe c type) }
  | .unsubscribe c type =>
    .ok { s with subscriptions := command s.subscriptions (.unsubscribe c type) }
  | .read c token id size =>
    s.onFound (s.findClient id c) fun r => stateOf (virtualStreamRead r c token size)
  | .write c token id size text =>
    s.onFound (s.findClient id c) fun r => stateOf (virtualStreamWrite r c token size text)
  | .eos c token id => s.onFound (s.findClient id c) fun r => stateOf (virtualStreamEos r c token)
  | .connect c id =>
    if (s.findClient id c).isSome then .ok s
    else s.onFound (s.findStream id) fun r => .ok (virtualStreamConnect r c)
  | .disconnect c id => s.onFound (s.findClient id c) fun r => virtualStreamDisconnect r c
  | .channelClosed c => do
    let streams ← s.streams.mapM fun r => virtualStreamDisconnect r c
    return { s with streams, subscriptions := command s.subscriptions (.channelClosed c) }
  | .create type bufLen access => .ok (s.create type bufLen access)
  | .addData i buf eos => s.onStream i fun r => stateOf (addData r buf eos)
  | .getData i bufSize fresh =>
      s.onStream i fun r => stateOf ((getData fresh r bufSize).map Prod.snd)
  | .delete i => s.onStream i virtualStreamDelete
  | .deleteStream i => s.onStream i deleteStream
  | .notifySpaceAvailable i => s.onStream i notifySpaceAvailable
  | .notifyDataAvailable i => s.onStream i notifyDataAvailable

/-- What the agent itself keeps to: a buffer has less than 2^32 bytes, an owner does not use a
stream it has deleted, and posted events are handled once, in the order in which they were
posted. -/
def Owned (s : Service) : Event → Prop
  | .create _ bufLen _ => bufLen < 2 ^ 32
  | .addData i _ _ | .getData i _ _ | .delete i => ∀ r ∈ s.streams[i]?, r.base.deleted = false
  | .deleteStream i => ∀ r ∈ s.streams[i]?, r.base.deletePosted = true ∧
      r.base.spaceAvailablePosted = false ∧ r.dataAvailablePosted = false
  | .notifySpaceAvailable i => ∀ r ∈ s.streams[i]?, r.base.spaceAvailablePosted = true
  | .notifyDataAvailable i => ∀ r ∈ s.streams[i]?, r.dataAvailablePosted = true
  | _ => True

/-- A read asks for one byte or more, unless the stream has ended and its client has everything. -/
def AsksForBytes (s : Service) : Event → Prop
  | .read c _ id size => ∀ i ∈ s.findClient id c, ∀ r ∈ s.streams[i]?, r.access = .remoteRead →
      ∀ client ∈ r.base.findClient c, 0 < size ∨ client.pos = r.base.pos ∧ r.base.eosInp = true
  | _ => True

instance (s : Service) (e : Event) : Decidable (Owned s e) := by
  cases e <;> unfold Owned <;> infer_instance

instance (s : Service) (e : Event) : Decidable (AsksForBytes s e) := by
  cases e <;> unfold AsksForBytes <;> infer_instance

/-- A step that ends. -/
def Service.next (s : Service) (e : Event) : Option Service := (s.step e).toOption

/-- The steps of a run, one after the other. -/
def Service.run (s : Service) (es : List Event) : Except Trap Service := es.foldlM Service.step s

/-! ## Steps -/

/-- What holds of the service. -/
structure Sound (s : Service) : Prop where
  streams       : ∀ r ∈ s.streams, Good r
  subscriptions : s.subscriptions.Nodup

section

variable {s : Service} {e : Event} {f : Remote → Except Trap Remote} {i : Nat}

theorem safe_stateOf {α : Type} {x : Except Trap (α × Remote)} (h : Safe (fun p => Good p.2) x) :
    Safe Good (stateOf x) := by
  cases x with
  | error t => exact h
  | ok p => exact h

theorem Sound.onStream (h : Sound s) (hf : ∀ r ∈ s.streams[i]?, Good r → Safe Good (f r)) :
    Safe Sound (s.onStream i f) := by
  unfold Service.onStream
  split
  · exact h
  · rename_i r hStream
    refine (hf r hStream (h.streams r (List.mem_of_getElem? hStream))).bind ?_
    intro r' hr'
    refine ⟨?_, h.subscriptions⟩
    intro k hk
    rcases List.mem_or_eq_of_mem_set hk with hk | rfl
    · exact h.streams k hk
    · exact hr'

theorem Sound.onFound {o : Option Nat} (h : Sound s)
    (hf : ∀ i ∈ o, ∀ r ∈ s.streams[i]?, Good r → Safe Good (f r)) : Safe Sound (s.onFound o f) := by
  cases o with
  | none => exact h
  | some i => exact h.onStream (hf i rfl)

theorem Sound.closed (h : Sound s) (c : Nat) :
    Safe (fun streams => ∀ r ∈ streams, Good r)
      (s.streams.mapM fun r => virtualStreamDisconnect r c) := by
  have hAll := h.streams
  generalize s.streams = streams at hAll
  induction streams with
  | nil => exact List.forall_mem_nil _
  | cons r streams ih =>
    rw [List.mapM_cons]
    refine (safe_disconnect (hAll r List.mem_cons_self) c).bind ?_
    intro r' hr'
    refine (ih fun k hk => hAll k (List.mem_cons_of_mem _ hk)).bind ?_
    intro streams' hStreams
    exact List.forall_mem_cons.2 ⟨hr', hStreams⟩

/-- One step finds its assertions true. -/
theorem Service.step_safe (h : Sound s) (hOwned : Owned s e) (hAsks : AsksForBytes s e) :
    Safe Sound (s.step e) := by
  cases e with
  | subscribe c type => exact ⟨h.streams, command_nodup h.subscriptions (.subscribe c type)⟩
  | unsubscribe c type => exact ⟨h.streams, command_nodup h.subscriptions (.unsubscribe c type)⟩
  | read c token id size =>
    refine h.onFound ?_
    intro i hi r hr hGood
    exact safe_stateOf (safe_read hGood c token (hAsks i hi r hr))
  | write c token id size text =>
    exact h.onFound fun _ _ r _ hGood => safe_stateOf (safe_write hGood c token size text)
  | eos c token id => exact h.onFound fun _ _ r _ hGood => safe_stateOf (safe_eos hGood c token)
  | connect c id =>
    show Safe Sound (if (s.findClient id c).isSome then _ else _)
    split
    · exact h
    · exact h.onFound (f := fun r => .ok (virtualStreamConnect r c))
        fun _ _ r _ hGood => hGood.connect c
  | disconnect c id => exact h.onFound fun _ _ r _ hGood => safe_disconnect hGood c
  | channelClosed c =>
    refine (h.closed c).bind ?_
    intro streams hStreams
    exact ⟨hStreams, command_nodup h.subscriptions (.channelClosed c)⟩
  | create type bufLen access =>
    have hInv := inv_create h.subscriptions type hOwned
    refine ⟨List.forall_mem_append.2 ⟨h.streams, List.forall_mem_singleton.2 ?_⟩, h.subscriptions⟩
    exact ⟨fun _ => hInv, hInv.ring, hInv.counted, fun hPosted => absurd hPosted Bool.false_ne_true⟩
  | addData i buf eos =>
    refine h.onStream ?_
    intro r hr hGood
    exact safe_stateOf
      (safe_addData hGood (hGood.counted.magic_of_deleted (hOwned r hr)) buf eos)
  | getData i bufSize fresh =>
    refine h.onStream ?_
    intro r hr hGood
    have hSafe := safe_getData fresh hGood (hGood.counted.magic_of_deleted (hOwned r hr)) bufSize
    refine safe_stateOf ?_
    cases hRun : getData fresh r bufSize with
    | error t =>
      rw [hRun] at hSafe
      exact hSafe
    | ok p =>
      rw [hRun] at hSafe
      exact hSafe
  | delete i => exact h.onStream fun r hr hGood => safe_delete hGood (hOwned r hr)
  | deleteStream i =>
    refine h.onStream ?_
    intro r hr hGood
    obtain ⟨hPosted, hSpace, hData⟩ := hOwned r hr
    exact safe_deleteStream hGood hPosted hSpace hData
  | notifySpaceAvailable i =>
    exact h.onStream fun r hr hGood => safe_notifySpaceAvailable hGood (hOwned r hr)
  | notifyDataAvailable i =>
    exact h.onStream fun r hr hGood => safe_notifyDataAvailable hGood (hOwned r hr)

/-! ## Every run -/

theorem Service.run_safe {es : List Event} (h : Sound s)
    (hAllowed : Meets Service.next (fun s e => Owned s e ∧ AsksForBytes s e) s es) :
    Safe Sound (s.run es) := by
  induction es generalizing s with
  | nil => exact h
  | cons e es ih =>
    have hStep := Service.step_safe h hAllowed.1.1 hAllowed.1.2
    unfold Service.run at ih ⊢
    rw [List.foldlM_cons]
    have hNext : ∀ s', s.step e = .ok s' →
        Meets Service.next (fun s e => Owned s e ∧ AsksForBytes s e) s' es := by
      intro s' hs'
      refine hAllowed.2 s' ?_
      unfold Service.next
      rw [hs']
      rfl
    cases hRun : s.step e with
    | error t =>
      rw [hRun] at hStep
      exact hStep
    | ok s' =>
      rw [hRun] at hStep
      exact ih hStep (hNext s' hRun)

end

/-- No assertion of the service fails in a run in which reads ask for something. -/
theorem no_assertion_fails (es : List Event)
    (hAllowed : Meets Service.next (fun s e => Owned s e ∧ AsksForBytes s e) {} es) :
    Service.run {} es ≠ .error .assertion := by
  have hSafe := Service.run_safe (s := {}) ⟨List.forall_mem_nil _, List.nodup_nil⟩ hAllowed
  intro hRun
  rw [hRun] at hSafe
  exact hSafe rfl

/-- One stream that is read to its end, where a read of nothing is answered, and one that is
written. -/
theorem no_assertion_fails_sample :
    Service.run {} [.subscribe 1 [83], .create [83] 4 .remoteRead, .create [84] 4 .remoteWrite,
      .read 1 [49] (ascii "VS0") 2, .addData 0 [10, 11, 12] true, .read 1 [50] (ascii "VS0") 9,
      .read 1 [51] (ascii "VS0") 0, .connect 1 (ascii "VS1"),
      .write 1 [52] (ascii "VS1") 3 (ascii "(3)abc"), .getData 1 9 (fun _ => 0),
      .disconnect 1 (ascii "VS1"), .delete 1, .channelClosed 1] ≠ .error .assertion :=
  no_assertion_fails _ (by decide)

/-- A read of nothing, where there is something to read, cannot be answered. -/
theorem not_no_assertion_fails : ¬ ∀ es : List Event, Meets Service.next Owned {} es →
    Service.run {} es ≠ .error .assertion := by
  intro hAll
  have hRun : Service.run {} [.create [83] 4 .remoteRead, .connect 1 (ascii "VS0"),
      .addData 0 [10] false, .read 1 [49] (ascii "VS0") 0] = .error .assertion := rfl
  exact hAll _ (by decide) hRun

end TcfAgent.StreamCommands
