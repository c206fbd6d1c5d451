import Mathlib.Data.List.Nodup
import TcfAgent.Framework.JsonText

/-!
# Peer servers

`PeerServer` of `framework/peer.c` and its properties. No two properties have one name, and none is
called `ID`: `peer_server_addprop` keeps this, and the type says it.
-/

namespace TcfAgent.Peer

open TcfAgent.JsonText

/-! ## Strings -/

/-- A C string: there is no zero in front of its end. -/
structure CString where
  chars : Text
  noZero : 0 ∉ chars
deriving DecidableEq

/-- The part of a text in front of the first zero. -/
def CString.ofText (text : Text) : CString where
  chars := text.takeWhile (· ≠ 0)
  noZero := by
    intro hMem
    simpa using List.mem_takeWhile_imp hMem

def cstring (s : String) : CString := .ofText (ascii s)

theorem CString.ofText_chars (str : CString) : CString.ofText str.chars = str := by
  obtain ⟨chars, noZero⟩ := str
  simp only [CString.ofText, CString.mk.injEq]
  refine List.takeWhile_eq_self_iff.2 fun c hc => ?_
  rw [decide_eq_true_eq]
  rintro rfl
  exact noZero hc

/-! ## Properties -/

/-- `PeerServerList` -/
abbrev Property := CString × CString

/-- `PS_FLAG_LOCAL`, `PS_FLAG_PRIVATE` and `PS_FLAG_DISCOVERABLE` -/
structure Flags where
  isLocal         : Bool
  isPrivate       : Bool
  isDiscoverable  : Bool
deriving DecidableEq, Repr

/-- `PeerServer`, as it is before it is listed. -/
structure PeerServer where
  id    : Option CString
  list  : List Property
  flags : Flags
  nodup : (list.map Prod.fst).Nodup
  noId  : cstring "ID" ∉ list.map Prod.fst

/-- `peer_server_alloc` -/
def PeerServer.alloc : PeerServer :=
    ⟨none, [], ⟨false, false, false⟩, List.nodup_nil, List.not_mem_nil⟩

/-- The loop of `peer_server_addprop`: the value is replaced, or the property comes behind the
others. -/
def setProperty (name value : CString) : List Property → List Property
  | [] => [(name, value)]
  | a :: list => if a.1 = name then (a.1, value) :: list else a :: setProperty name value list

theorem map_setProperty (name value : CString) (list : List Property) :
    (setProperty name value list).map Prod.fst =
      if name ∈ list.map Prod.fst then list.map Prod.fst else list.map Prod.fst ++ [name] := by
  induction list with
  | nil => rfl
  | cons a list ih =>
    rw [setProperty]
    by_cases hSame : a.1 = name
    · rw [if_pos hSame, if_pos (by rw [List.map_cons, hSame]; exact List.mem_cons_self)]
      rfl
    · rw [if_neg hSame, List.map_cons, ih, List.map_cons]
      by_cases hMem : name ∈ list.map Prod.fst
      · rw [if_pos hMem, if_pos (List.mem_cons_of_mem _ hMem)]
      · have hNew : name ∉ a.1 :: list.map Prod.fst := fun hHere =>
          (List.mem_cons.1 hHere).elim (Ne.symm hSame) hMem
        rw [if_neg hMem, if_neg hNew]
        rfl

/-- A property of a new name comes behind the others. -/
theorem setProperty_new {name value : CString} {list : List Property}
    (h : name ∉ list.map Prod.fst) :
    setProperty name value list = list ++ [(name, value)] := by
  induction list with
  | nil => rfl
  | cons a list ih =>
    rw [List.map_cons, List.mem_cons, not_or] at h
    rw [setProperty, if_neg (Ne.symm h.1), ih h.2]
    rfl

/-- `peer_server_addprop` -/
def PeerServer.addprop (s : PeerServer) (name value : CString) : PeerServer :=
  if hId : name = cstring "ID" then { s with id := some value }
  else
    { s with
      list := setProperty name value s.list
      nodup := by
        rw [map_setProperty]
        split
        · exact s.nodup
        · rename_i hNew
          exact List.nodup_append.2 ⟨s.nodup, List.nodup_singleton _, fun a ha b hb => by
            rw [List.mem_singleton.1 hb]
            rintro rfl
            exact hNew ha⟩
      noId := by
        rw [map_setProperty]
        split
        · exact s.noId
        · rw [List.mem_append, List.mem_singleton, not_or]
          exact ⟨s.noId, Ne.symm hId⟩ }

theorem PeerServer.addprop_id (s : PeerServer) (value : CString) :
    (s.addprop (cstring "ID") value).id = some value ∧
    (s.addprop (cstring "ID") value).list = s.list := by
  rw [addprop, dif_pos rfl]
  exact ⟨rfl, rfl⟩

/-- A property of a new name comes behind the others. -/
theorem PeerServer.addprop_new {s : PeerServer} {name : CString} (value : CString)
    (hId : name ≠ cstring "ID")
    (hNew : name ∉ s.list.map Prod.fst) :
    (s.addprop name value).id = s.id ∧ (s.addprop name value).list = s.list ++ [(name, value)] := by
  rw [addprop, dif_neg hId]
  exact ⟨rfl, setProperty_new hNew⟩

/-- All properties of a list, one after the other. -/
def PeerServer.addprops (s : PeerServer) (list : List Property) : PeerServer :=
  list.foldl (fun s a => s.addprop a.1 a.2) s

theorem PeerServer.addprops_new {s : PeerServer} {list : List Property}
    (hId : cstring "ID" ∉ list.map Prod.fst)
    (hNodup : ((s.list ++ list).map Prod.fst).Nodup) :
    (s.addprops list).id = s.id ∧ (s.addprops list).list = s.list ++ list := by
  induction list generalizing s with
  | nil => exact ⟨rfl, (List.append_nil _).symm⟩
  | cons a list ih =>
    rw [List.map_cons, List.mem_cons, not_or] at hId
    have hNew : a.1 ∉ s.list.map Prod.fst := by
      intro hMem
      rw [List.map_append, List.nodup_append] at hNodup
      exact hNodup.2.2 _ hMem _ List.mem_cons_self rfl
    obtain ⟨hSameId, hList⟩ := s.addprop_new a.2 (Ne.symm hId.1) hNew
    have hRest := ih (s := s.addprop a.1 a.2) hId.2 (by
      rw [hList, List.append_assoc]
      exact hNodup)
    rw [hSameId, hList, List.append_assoc] at hRest
    exact hRest

/-- `peer_server_getprop` -/
def PeerServer.getprop (s : PeerServer) (name : CString) : Option CString :=
  (s.list.find? fun a => a.1 = name).map Prod.snd

end TcfAgent.Peer
