import TcfAgent.Services.DiscoveryPackets

/-!
# What is read of a packet

The scanners of the UDP discovery keep to the packet, but for the last string of a packet with
addresses of slaves.

Main results:

* `packets_read_exactly` — which packets are read without what is behind them, and that the
  properties of a peer are read as they were written.
-/

namespace TcfAgent.Discovery

open TcfAgent.Lib TcfAgent.Lib.Scan TcfAgent.JsonText TcfAgent.Peer

section

variable {env : Env} {n e p pos z fuel : Nat} {buf : Text} {ps : PeerServer}

/-! ## Properties of a peer -/

theorem readProperty_within (hInside : p < e) (hEnd : e ≤ buf.length)
    (hMax : buf.length = maxPacketSize) :
    Within e (fun r t => t.length = buf.length ∧ ∀ name value q, r = some (name, value, q) →
      p < q ∧ q ≤ e)
      (readProperty e p) buf := by
  have hNone : Within e (fun (r : Option (Text × Text × Nat)) t => t.length = buf.length ∧
      ∀ name value q, r = some (name, value, q) → p < q ∧ q ≤ e) (pure none) buf :=
    ⟨rfl, fun name value q hSome => by cases hSome⟩
  refine (scanTo_within (by omega) hEnd).bind ?_
  rintro q t ⟨rfl, hLow, hHigh, hStop, -⟩
  by_cases hq : q < e
  · rw [if_pos hq]
    obtain ⟨c, hByte, -⟩ := hStop (by omega)
    refine within_bind.2 ⟨hq, c, hByte, ?_⟩
    show Within e _ (if c = 61 then _ else _) t
    by_cases hEqual : c = 61
    · rw [if_pos hEqual]
      have hLength : (t.set q 0).length = t.length := List.length_set
      refine within_bind.2 (within_write.2 ((scanTo_within (by omega) (by omega)).bind ?_))
      rintro r u ⟨rfl, hLowR, hHighR, hStopR, -⟩
      by_cases hr : r < e
      · rw [if_pos hr]
        obtain ⟨d, hByteR, hZero⟩ := hStopR (by omega)
        obtain rfl : d = 0 := by simpa using hZero
        have hByteQ : (t.set q 0)[q]? = some 0 := by
          rw [List.getElem?_set_self (by omega)]
        refine (cstr_ends hLow hq hByteQ (by omega)).bind ?_
        rintro name u ⟨rfl, -⟩
        refine (cstr_ends hLowR hr hByteR (by omega)).bind ?_
        rintro value u ⟨rfl, -⟩
        refine ⟨hLength, fun name value q' hSome => ?_⟩
        obtain ⟨-, hRest⟩ := Prod.mk.inj (Option.some.inj hSome)
        obtain ⟨-, rfl⟩ := Prod.mk.inj hRest
        omega
      · rw [if_neg hr]
        exact ⟨hLength, fun name value q hSome => by cases hSome⟩
    · rw [if_neg hEqual]
      exact hNone
  · rw [if_neg hq]
    exact hNone

theorem readPeer_within (hFuel : e ≤ p + fuel) (hEnd : e ≤ buf.length)
    (hMax : buf.length = maxPacketSize) :
    Within e (fun _ _ => True) (readPeer e fuel p ps) buf := by
  induction fuel generalizing p ps buf with
  | zero =>
    rw [readPeer, if_neg (by omega)]
    trivial
  | succ fuel ih =>
    rw [readPeer]
    by_cases hInside : p < e
    · rw [if_pos hInside]
      refine (readProperty_within hInside hEnd hMax).bind ?_
      rintro (- | ⟨name, value, q⟩) t ⟨hLength, hNext⟩
      · trivial
      · obtain ⟨hLow, hHigh⟩ := hNext name value q rfl
        exact ih (by omega) (by omega) (by omega)
    · rw [if_neg hInside]
      trivial

theorem ackInfo_within (hEnd : e ≤ buf.length) (hMax : buf.length = maxPacketSize) :
    Within e (fun _ _ => True) (udpReceiveAckInfo env e) buf :=
  (readPeer_within (Nat.le_add_left e 8) hEnd hMax).bind fun _ _ _ => trivial

/-! ## Peers that are removed -/

theorem readRemoved_within (hFuel : e ≤ p + fuel) (hEnd : e ≤ buf.length)
    (hMax : buf.length = maxPacketSize) :
    Within e (fun _ _ => True) (readRemoved e fuel p) buf := by
  induction fuel generalizing p with
  | zero =>
    rw [readRemoved, if_neg (by omega)]
    trivial
  | succ fuel ih =>
    rw [readRemoved]
    by_cases hInside : p < e
    · rw [if_pos hInside]
      refine (scanTo_within (by omega) hEnd).bind ?_
      rintro q t ⟨rfl, hLow, hHigh, hStop, -⟩
      by_cases hq : q < e
      · rw [if_pos hq]
        obtain ⟨c, hByte, hZero⟩ := hStop (by omega)
        obtain rfl : c = 0 := by simpa using hZero
        refine (cstr_ends hLow hq hByte (by omega)).bind ?_
        rintro id u ⟨rfl, -⟩
        refine (scanTo_within (by omega) hEnd).bind ?_
        rintro r u ⟨rfl, hLowR, hHighR, hStopR, -⟩
        have hMore : p + 1 ≤ r := by
          rcases Nat.eq_or_lt_of_le hLowR with rfl | hLess
          · obtain ⟨d, hByteR, hNotZero⟩ := hStopR (by omega)
            rw [hByte] at hByteR
            cases hByteR
            simp at hNotZero
          · omega
        exact (ih (by omega)).bind fun _ _ _ => trivial
      · rw [if_neg hq]
        exact ih (by omega)
    · rw [if_neg hInside]
      trivial

/-! ## Addresses of slaves -/

theorem nextField_within (hLe : p ≤ z) (hInside : z < n) (hZero : buf[z]? = some 0)
    (hMax : buf.length = maxPacketSize) :
    Within n (fun q t => p ≤ q ∧ q ≤ z ∧ t.length = buf.length ∧
      ∀ i, z ≤ i → t[i]? = buf[i]?) (nextField p) buf := by
  have hShort : z < buf.length := (List.getElem?_eq_some_iff.1 hZero).1
  refine (scanTo_ends hLe hInside ⟨0, hZero, by decide⟩ (by omega)).bind ?_
  rintro q t ⟨rfl, hLow, hHigh, c, hByte, -⟩
  refine within_bind.2 ⟨by omega, c, hByte, ?_⟩
  show Within n _ (if c = 58 then _ else _) t
  by_cases hColon : c = 58
  · rw [if_pos hColon]
    have hNe : q ≠ z := by
      rintro rfl
      rw [hZero] at hByte
      rw [hColon] at hByte
      cases hByte
    refine ⟨by omega, by omega, List.length_set, fun i hi => ?_⟩
    exact List.getElem?_set_ne (by omega)
  · rw [if_neg hColon]
    exact ⟨hLow, hHigh, rfl, fun _ _ => rfl⟩

theorem readStamp_within {ts : BitVec 64} (hLe : p ≤ z) (hInside : z < n) (hZero : buf[z]? = some 0)
    (hFuel : z < p + fuel) : Within n (fun _ t => t = buf) (readStamp fuel p ts) buf := by
  induction fuel generalizing p ts with
  | zero => exact absurd hFuel (by omega)
  | succ fuel ih =>
    have hHere : p < buf.length := by
      have hLess := (List.getElem?_eq_some_iff.1 hZero).1
      omega
    refine within_bind.2 ⟨by omega, buf[p], List.getElem?_eq_getElem hHere, ?_⟩
    show Within n _ (if 48 ≤ buf[p] ∧ buf[p] ≤ 57 then _ else _) buf
    by_cases hDigit : 48 ≤ buf[p] ∧ buf[p] ≤ 57
    · rw [if_pos hDigit]
      have hBefore : p ≠ z := by
        rintro rfl
        rw [List.getElem?_eq_getElem hHere] at hZero
        rw [Option.some.inj hZero] at hDigit
        exact absurd hDigit (by decide)
      exact ih (by omega) (by omega)
    · rw [if_neg hDigit]
      rfl

/-- An address that has a zero in the packet behind it. -/
theorem getSlaveAddr_within (hLe : pos ≤ z) (hInside : z < n) (hZero : buf[z]? = some 0)
    (hMax : buf.length = maxPacketSize) :
    Within n (fun r t => pos < r.1 ∧ r.1 ≤ z + 1 ∧ t.length = buf.length ∧
      ∀ i, z ≤ i → t[i]? = buf[i]?) (getSlaveAddr env pos) buf := by
  have hShort : z < buf.length := (List.getElem?_eq_some_iff.1 hZero).1
  refine (cstr_ends hLe hInside hZero (by omega)).bind ?_
  rintro str t ⟨rfl, -, hEnd, hByte⟩
  have hLowEnd : pos ≤ pos + str.length := Nat.le_add_right _ _
  refine (nextField_within hLowEnd (by omega) hByte hMax).bind ?_
  rintro port u ⟨hLowPort, hHighPort, hLengthU, hSameU⟩
  have hByteU : u[pos + str.length]? = some 0 := (hSameU _ (le_refl _)).trans hByte
  refine (nextField_within hHighPort (by omega) hByteU (hLengthU.trans hMax)).bind ?_
  rintro host v ⟨hLowHost, hHighHost, hLengthV, hSameV⟩
  have hByteV : v[pos + str.length]? = some 0 := (hSameV _ (le_refl _)).trans hByteU
  have hDone : pos < pos + str.length + 1 ∧ pos + str.length + 1 ≤ z + 1 ∧ v.length = t.length ∧
      ∀ i, z ≤ i → v[i]? = t[i]? :=
    ⟨by omega, by omega, hLengthV.trans hLengthU,
      fun i hi => (hSameV i (by omega)).trans (hSameU i (by omega))⟩
  refine (cstr_ends hHighHost (by omega) hByteV (by omega)).bind ?_
  rintro hostStr w ⟨rfl, -⟩
  rcases env.inetPton hostStr with - | addr
  · exact hDone
  · refine (cstr_ends hHighPort (by omega) hByteV (by omega)).bind ?_
    rintro portStr w ⟨rfl, -⟩
    split
    · exact hDone
    · refine (readStamp_within hLowEnd (by omega) hByteV (by omega)).bind ?_
      rintro ts w rfl
      exact hDone

theorem readSlaves_within (hFuel : n ≤ pos + fuel) (hLast : buf[n - 1]? = some 0)
    (hMax : buf.length = maxPacketSize) : Within n (fun _ _ => True)
    (readSlaves env n fuel pos) buf := by
  induction fuel generalizing pos buf with
  | zero =>
    rw [readSlaves, if_neg (by omega)]
    trivial
  | succ fuel ih =>
    rw [readSlaves]
    by_cases hInside : pos < n
    · rw [if_pos hInside]
      refine (getSlaveAddr_within (Nat.le_sub_one_of_lt hInside) (by omega) hLast hMax).bind ?_
      rintro ⟨next, slave⟩ t ⟨hLow, hHigh, hLength, hSame⟩
      refine (ih (by omega) ((hSame _ (le_refl _)).trans hLast) (hLength.trans hMax)).bind
        fun calls u _ => ?_
      rcases slave with - | ⟨addr, port, ts⟩
      · trivial
      · trivial
    · rw [if_neg hInside]
      trivial

/-- When the last byte is not a zero, a string is read beyond the packet. -/
theorem not_readSlaves_within {c : UInt8} {Q : List Call → Text → Prop} (hInside : pos < n)
    (hLast : buf[n - 1]? = some c) (hByte : c ≠ 0) (hMax : buf.length = maxPacketSize) :
    ¬ Within n Q (readSlaves env n fuel pos) buf := by
  induction fuel generalizing pos buf Q with
  | zero =>
    rw [readSlaves, if_pos hInside]
    exact not_false
  | succ fuel ih =>
    rw [readSlaves, if_pos hInside, within_bind]
    intro hWithin
    by_cases hZero : ∃ z, pos ≤ z ∧ z < n ∧ buf[z]? = some 0
    · obtain ⟨z, hLe, hLess, hAt⟩ := hZero
      have hNotLast : z ≠ n - 1 := by
        rintro rfl
        rw [hLast] at hAt
        exact hByte (Option.some.inj hAt)
      have hBoth := (@getSlaveAddr_within env n pos z buf hLe hLess hAt hMax).and hWithin
      obtain ⟨-, ⟨next, slave⟩, t, -, ⟨hLow, hHigh, hLength, hSame⟩, hRest⟩ := within_iff.1 hBoth
      rw [within_bind] at hRest
      exact ih (by omega) ((hSame _ (by omega)).trans hLast) (hLength.trans hMax) hRest
    · rw [getSlaveAddr, within_bind] at hWithin
      exact not_cstr_within (fun i hLe hLess hAt => hZero ⟨i, hLe, hLess, hAt⟩) hWithin

/-! ## Packets -/

/-- What is done with a packet that is long enough, by its first bytes. -/
theorem recv_within {c0 c1 c2 c3 type : UInt8} {rest : Text} {Q : List Call → Text → Prop}
    (hLong : 8 ≤ n)
    (hBuf : buf = c0 :: c1 :: c2 :: c3 :: type :: rest) : Within n Q (udpServerRecv env n) buf ↔
      if [c0, c1, c2, c3] = ascii "TCF2" ∧ env.remote then
        Within n Q (if type = 5 then udpReceivePeerRemoved n else if type =
          2 then udpReceiveAckInfo env n
          else if type = 4 then udpReceiveAckSlaves env n else pure []) buf
      else Q [] buf := by
  have hByte : ∀ {β : Type} {i : Nat} {c : UInt8} {R : β → Text → Prop} {next : UInt8 → Scan β},
      i < 8 → buf[i]? = some c → (Within n R (byte i >>= next) buf ↔ Within n R (next c) buf) := by
    intro β i c R next hi hc
    rw [within_bind, within_byte]
    constructor
    · rintro ⟨-, c', hc', hNext⟩
      rw [hc] at hc'
      rwa [Option.some.inj hc']
    · exact fun hNext => ⟨by omega, c, hc, hNext⟩
  rw [udpServerRecv, if_pos hLong, hByte (by decide) (by rw [hBuf]; rfl),
    hByte (by decide) (by rw [hBuf]; rfl),
    hByte (by decide) (by rw [hBuf]; rfl), hByte (by decide) (by rw [hBuf]; rfl)]
  split
  · rw [hByte (by decide) (by rw [hBuf]; rfl)]
  · exact Iff.rfl

/-- The first bytes of the buffer are the packet. -/
theorem received_agree (packet : Packet) (old old' : Text) :
    Agree packet.bytes.length (packet.received old) (packet.received old') := by
  intro i hi
  rw [Packet.received, Packet.received, List.getElem?_append_left hi, List.getElem?_append_left hi]

variable {old : Text}

theorem received_length (packet : Packet) (hOld : old.length = maxPacketSize) :
    (packet.received old).length = maxPacketSize := by
  have hLe := packet.le
  rw [Packet.received, List.length_append, List.length_drop]
  omega

/-- The last byte of a packet, in the buffer. -/
theorem received_last (packet : Packet) (old : Text) (hSome : 0 < packet.bytes.length) :
    (packet.received old)[packet.bytes.length - 1]? = packet.bytes.getLast? := by
  rw [Packet.received, List.getElem?_append_left (by omega), List.getLast?_eq_getElem?]

/-- A packet that is long enough has first bytes. -/
theorem received_bytes (packet : Packet) (old : Text) (hLong : 8 ≤ packet.bytes.length) :
    ∃ c0 c1 c2 c3 type rest, packet.bytes = c0 :: c1 :: c2 :: c3 :: type :: rest ∧
      packet.received old =
        c0 :: c1 :: c2 :: c3 :: type :: (rest ++ old.drop packet.bytes.length) := by
  obtain ⟨bytes, hLe⟩ := packet
  rcases bytes with - | ⟨c0, - | ⟨c1, - | ⟨c2, - | ⟨c3, - | ⟨type, rest⟩⟩⟩⟩⟩
  · exact absurd hLong (by simp)
  · exact absurd hLong (by simp)
  · exact absurd hLong (by simp)
  · exact absurd hLong (by simp)
  · exact absurd hLong (by simp)
  · exact ⟨c0, c1, c2, c3, type, rest, rfl, rfl⟩

theorem terminated_within {packet : Packet} (h : Terminated env packet)
    (hOld : old.length = maxPacketSize) :
    Within packet.bytes.length (fun _ _ => True) (udpServerRecv env packet.bytes.length)
      (packet.received old) := by
  have hMax := received_length packet hOld
  have hEnd : packet.bytes.length ≤ (packet.received old).length := by
    rw [hMax]
    exact packet.le
  by_cases hLong : 8 ≤ packet.bytes.length
  · obtain ⟨c0, c1, c2, c3, type, rest, hBytes, hReceived⟩ := received_bytes packet old hLong
    rw [recv_within hLong hReceived]
    split
    · rename_i hHeader
      split
      · exact readRemoved_within (Nat.le_add_left _ _) hEnd hMax
      · split
        · exact ackInfo_within hEnd hMax
        · split
          · rename_i hType
            by_cases hSome : 8 < packet.bytes.length
            · have hPrefix : ascii "TCF2" ++ [4] <+: packet.bytes := by
                rw [← hHeader.1, ← hType, hBytes]
                exact ⟨rest, rfl⟩
              refine readSlaves_within (Nat.le_add_left _ _) ?_ hMax
              rw [received_last packet old (by omega)]
              exact h hHeader.2 hPrefix hSome
            · have hNone : packet.bytes.length = 8 := by omega
              rw [hNone]
              exact trivial
          · exact trivial
    · exact trivial
  · rw [udpServerRecv, if_neg (by omega)]
    exact trivial

/-- Without the zero a packet with addresses is not read within its bytes. -/
theorem terminated_of_within {packet : Packet} (hOld : old.length = maxPacketSize)
    (h : Within packet.bytes.length (fun _ _ => True) (udpServerRecv env packet.bytes.length)
      (packet.received old)) : Terminated env packet := by
  rintro hRemote ⟨rest, hBytes⟩ hLong
  by_contra hLast
  have hReceived : packet.received old =
      84 :: 67 :: 70 :: 50 :: 4 :: (rest ++ old.drop packet.bytes.length) := by
    rw [Packet.received, ← hBytes]
    rfl
  rw [recv_within (by omega) hReceived, if_pos ⟨by decide, hRemote⟩, if_neg (by decide),
    if_neg (by decide),
    if_pos rfl] at h
  obtain ⟨c, hByte⟩ : ∃ c, packet.bytes.getLast? = some c := by
    rw [List.getLast?_eq_getElem?]
    exact ⟨_, List.getElem?_eq_getElem (by omega)⟩
  refine not_readSlaves_within (c := c) hLong ?_ ?_ (received_length packet hOld) h
  · rw [received_last packet old (by omega), hByte]
  · rintro rfl
    exact hLast hByte

theorem readExactly_iff (env : Env) (packet : Packet) : ReadExactly env packet ↔
    Terminated env packet := by
  constructor
  · intro h
    have hZeros : (List.replicate maxPacketSize (0 : UInt8)).length = maxPacketSize :=
      List.length_replicate
    obtain ⟨hInside, calls, t, -, hRun, -⟩ := h _ _ hZeros hZeros
    exact terminated_of_within hZeros (within_iff.2 ⟨hInside, calls, t, hRun, trivial⟩)
  · intro h old old' hOld hOld'
    have hWithin := terminated_within h hOld
    have hLength := (received_length packet hOld).trans (received_length packet hOld').symm
    obtain ⟨-, calls, t, t', hRun, hRun', -⟩ :=
      hWithin.agree (received_agree packet old old') hLength
    exact ⟨(within_iff.1 hWithin).1, calls, t, t', hRun, hRun'⟩

/-! ## Round trip -/

/-- A property in a packet. -/
def encode (a : Property) : Text := a.1.chars ++ 61 :: (a.2.chars ++ [0])

theorem length_encode (a : Property) :
    (encode a).length = a.1.chars.length + 1 + a.2.chars.length + 1 := by
  rw [encode, List.length_append, List.length_cons, List.length_append, List.length_singleton]
  omega

theorem appChar_eq {c : UInt8} (h : buf.length < maxPacketSize) : appChar buf c = buf ++
    [c] := if_pos h

theorem appStr_eq {str : Text} (h : buf.length + str.length ≤ maxPacketSize) :
    appStr buf str = buf ++ str := by
  induction str generalizing buf with
  | nil => exact (List.append_nil buf).symm
  | cons c str ih =>
    rw [List.length_cons] at h
    rw [appStr, if_pos (by omega), ih (by rw [List.length_append, List.length_singleton]; omega),
      List.append_assoc]
    rfl

theorem appStrz_eq {str : Text} (h : buf.length + str.length < maxPacketSize) :
    appStrz buf str = buf ++ (str ++ [0]) := by
  rw [appStrz, appStr_eq (by omega), appChar_eq (by rw [List.length_append]; omega),
    List.append_assoc]

/-- A property is put behind what is in the packet. -/
theorem append_property {a : Property} (h : buf.length + (encode a).length ≤ maxPacketSize) :
    appStrz (appChar (appStr buf a.1.chars) 61) a.2.chars = buf ++ encode a := by
  rw [length_encode] at h
  rw [appStr_eq (by omega), appChar_eq (by rw [List.length_append]; omega),
    appStrz_eq (by rw [List.length_append, List.length_append, List.length_singleton]; omega),
      encode]
  simp

variable {list : List Property}

theorem append_properties
    (h : buf.length + (list.flatMap encode).length ≤ maxPacketSize) :
    list.foldl (fun buf a => appStrz (appChar (appStr buf a.1.chars) 61) a.2.chars) buf =
      buf ++ list.flatMap encode := by
  induction list generalizing buf with
  | nil => exact (List.append_nil buf).symm
  | cons a list ih =>
    rw [List.flatMap_cons, List.length_append] at h
    rw [List.foldl_cons, append_property (by omega), ih (by rw [List.length_append]; omega),
      List.flatMap_cons,
      List.append_assoc]

theorem packetSize_eq (id : CString) (list : List Property) :
    packetSize id list = 8 + (((cstring "ID", id) :: list).flatMap encode).length := by
  rw [packetSize, List.flatMap_cons, List.length_append, length_encode, List.length_flatMap]
  have hName : (cstring "ID").chars.length = 2 := rfl
  have hSizes : (list.map fun a => (encode a).length) =
      list.map fun a => a.1.chars.length + 1 + a.2.chars.length + 1 :=
    List.map_congr_left fun a _ => length_encode a
  rw [hSizes, hName]
  dsimp only
  omega

/-- A packet that fits is the properties one after the other. -/
theorem ackInfo_eq {id : CString} (h : packetSize id list ≤ maxPacketSize) :
    ackInfo id list = header 2 ++ ((cstring "ID", id) :: list).flatMap encode := by
  rw [packetSize_eq, List.flatMap_cons, List.length_append] at h
  have hHeader : (header 2).length = 8 := rfl
  have hFirst :
    appStrz (appStr (header 2) (ascii "ID=")) id.chars = header 2 ++ encode (cstring "ID", id) := by
    rw [length_encode] at h
    dsimp only at h
    have hName : (cstring "ID").chars.length = 2 := rfl
    rw [hName] at h
    have hText : (ascii "ID=").length = 3 := rfl
    rw [appStr_eq (by omega), appStrz_eq (by rw [List.length_append]; omega), List.append_assoc]
    rfl
  rw [ackInfo, hFirst, append_properties (by rw [List.length_append]; omega), List.flatMap_cons,
    List.append_assoc]

theorem readProperty_exact {pre post : Text} {a : Property} (hBuf : buf = pre ++ (encode a ++ post))
    (hName : 61 ∉ a.1.chars) (hEnd : pre.length + (encode a).length ≤ e)
    (hMax : e ≤ maxPacketSize) :
    Within e (fun r t => r = some (a.1.chars, a.2.chars, pre.length + (encode a).length) ∧
      ∃ item, item.length = (encode a).length ∧ t = pre ++ (item ++ post))
        (readProperty e pre.length) buf := by
  obtain ⟨⟨name, hNameZero⟩, ⟨value, hValueZero⟩⟩ := a
  rw [length_encode] at hEnd ⊢
  dsimp only at hName hEnd ⊢
  have hText : buf = pre ++ (name ++ 61 :: (value ++ 0 :: post)) := by
    rw [hBuf, encode]
    simp
  refine (scanTo_exact hText ?_ (by decide) (by omega) (by omega)).bind ?_
  · intro x hx hStop
    rw [Bool.or_eq_true, decide_eq_true_eq, decide_eq_true_eq] at hStop
    rcases hStop with rfl | rfl
    · exact hNameZero hx
    · exact hName hx
  rintro q t ⟨rfl, rfl⟩
  rw [if_pos (by omega)]
  refine within_bind.2 ⟨by omega, 61, by rw [hText]; simp, ?_⟩
  rw [Within, if_pos rfl]
  -- the name now ends with a zero
  have hSet : t.set (pre.length + name.length) 0 = pre ++ (name ++ 0 :: (value ++ 0 :: post)) := by
    rw [hText]
    simp
  -- the value follows, up to its zero
  have hValue :
    t.set (pre.length + name.length) 0 = (pre ++ (name ++ [0])) ++ (value ++ 0 :: post) := by
    rw [hSet]
    simp
  have hStart : (pre ++ (name ++ [0])).length = pre.length + name.length + 1 := by
    rw [List.length_append, List.length_append, List.length_singleton]
    omega
  refine within_bind.2 (within_write.2 ?_)
  rw [← hStart]
  refine (scanTo_exact hValue ?_ (by decide) (by omega) (by omega)).bind ?_
  · intro x hx hStop
    rw [decide_eq_true_eq] at hStop
    subst hStop
    exact hValueZero hx
  rintro r u ⟨rfl, rfl⟩
  rw [if_pos (by omega)]
  refine (cstr_within hSet hNameZero (by omega) (by omega)).bind ?_
  rintro str u ⟨rfl, rfl⟩
  refine (cstr_within hValue hValueZero (by omega) (by omega)).bind ?_
  rintro str' u ⟨rfl, rfl⟩
  refine ⟨?_, str ++ 0 :: (str' ++ [0]), ?_, ?_⟩
  · rw [hStart]
    congr 3
    omega
  · rw [List.length_append, List.length_cons, List.length_append, List.length_singleton]
    omega
  · rw [hSet]
    simp

theorem readPeer_exact {pre post : Text} (hBuf : buf = pre ++ (list.flatMap encode ++ post))
    (hNames : ∀ a ∈ list, 61 ∉ a.1.chars) (hEnd : e = pre.length + (list.flatMap encode).length)
    (hMax : e ≤ maxPacketSize) (hFuel : e ≤ pre.length + fuel) :
    Within e (fun r _ => r = (ps.addprops list, true)) (readPeer e fuel pre.length ps) buf := by
  induction list generalizing buf pre ps fuel with
  | nil =>
    have hDone : ¬ pre.length < e := by
      rw [hEnd]
      simp
    rcases fuel with - | fuel
    · rw [readPeer, if_neg hDone]
      rfl
    · rw [readPeer, if_neg hDone]
      rfl
  | cons a list ih =>
    rw [List.flatMap_cons, List.length_append] at hEnd
    have hSome := length_encode a
    rcases fuel with - | fuel
    · omega
    · rw [readPeer, if_pos (by omega)]
      have hItem : buf = pre ++ (encode a ++ (list.flatMap encode ++ post)) := by
        rw [hBuf, List.flatMap_cons, List.append_assoc]
      refine (readProperty_exact hItem (hNames a List.mem_cons_self) (by omega) hMax).bind ?_
      rintro r t ⟨rfl, item, hLength, rfl⟩
      dsimp only
      rw [CString.ofText_chars, CString.ofText_chars]
      have hPlace : pre.length + (encode a).length = (pre ++ item).length := by
        rw [List.length_append, hLength]
      rw [hPlace]
      refine ih ?_ (fun b hb => hNames b (List.mem_cons_of_mem _ hb)) ?_ ?_
      · rw [List.append_assoc]
      · omega
      · omega

/-- All interfaces are sent the same packet. -/
theorem sendTo_packet {isLocal : Bool} {peerAddr : Option IpAddr} {packet : Text}
    {ifcs : List Interface}
    {out : List (Interface × Text)} (h : sendTo env isLocal peerAddr packet ifcs = some out) :
    ∀ x ∈ out, x.2 = packet := by
  have hSent : ∀ {ifc : Interface} {rest : List Interface} {out : List (Interface × Text)},
      (∀ out, sendTo env isLocal peerAddr packet rest = some out → ∀ x ∈ out, x.2 = packet) →
      (sendTo env isLocal peerAddr packet rest).map ((ifc, packet) :: ·) = some out →
        ∀ x ∈ out, x.2 = packet := by
    intro ifc rest out hRest hMap x hx
    obtain ⟨out', hOut, rfl⟩ := Option.map_eq_some_iff.1 hMap
    rcases List.mem_cons.1 hx with rfl | hx
    · rfl
    · exact hRest out' hOut x hx
  induction ifcs generalizing out with
  | nil =>
    cases h
    exact fun x hx => absurd hx List.not_mem_nil
  | cons ifc ifcs ih =>
    unfold sendTo at h
    split at h
    · cases h
      exact fun x hx => absurd hx List.not_mem_nil
    · split at h
      · exact ih h
      · split at h
        · exact hSent (fun out => ih) h
        · split at h
          · exact ih h
          · split at h
            · cases h
            · split at h
              · exact ih h
              · exact hSent (fun out => ih) h

theorem udpSendPeerInfo_packet {out : List (Interface × Text)}
    (h : udpSendPeerInfo env ps = some out) :
    ∀ x ∈ out, ∃ id, ps.id = some id ∧ x.2 = ackInfo id ps.list := by
  rw [udpSendPeerInfo] at h
  split at h
  · cases h
    exact fun x hx => absurd hx List.not_mem_nil
  · rcases hId : ps.id with - | id
    · rw [hId] at h
      cases h
    · simp only [hId] at h
      intro x hx
      refine ⟨id, rfl, ?_⟩
      split at h
      · split at h
        · cases h
          exact absurd hx List.not_mem_nil
        · exact sendTo_packet h x hx
      · exact sendTo_packet h x hx

/-- The packet of a peer is read as its properties. -/
theorem ackInfo_read {id : CString} (old : Text) (hId : ps.id = some id)
    (hNames : ∀ a ∈ ps.list, 61 ∉ a.1.chars) (hSize : packetSize id ps.list ≤ maxPacketSize) :
    ∃ ps' t, run (readPeer (ackInfo id ps.list).length (ackInfo id ps.list).length 8 .alloc)
        (ackInfo id ps.list ++ old) = some ((ps', true), t) ∧ ps'.id = ps.id ∧
          ps'.list = ps.list := by
  have hPacket := ackInfo_eq hSize
  have hLength : (ackInfo id ps.list).length = packetSize id ps.list := by
    rw [hPacket, packetSize_eq, List.length_append]
    rfl
  have hAll : ∀ a ∈ (cstring "ID", id) :: ps.list, 61 ∉ a.1.chars := by
    intro a ha
    rcases List.mem_cons.1 ha with rfl | ha
    · show 61 ∉ (cstring "ID").chars
      decide
    · exact hNames a ha
  have hRead : Within (ackInfo id ps.list).length
      (fun r _ => r = (PeerServer.alloc.addprops ((cstring "ID", id) :: ps.list), true))
      (readPeer (ackInfo id ps.list).length (ackInfo id ps.list).length (header 2).length .alloc)
      (ackInfo id ps.list ++ old) := by
    have hBuf : ackInfo id ps.list ++ old =
        header 2 ++ (((cstring "ID", id) :: ps.list).flatMap encode ++ old) := by
      rw [hPacket, List.append_assoc]
    refine readPeer_exact hBuf hAll ?_ (by omega) (Nat.le_add_left _ _)
    rw [hPacket, List.length_append]
  obtain ⟨-, r, t, hRun, rfl⟩ := within_iff.1 hRead
  have hFirst := PeerServer.alloc.addprop_id id
  have hRest := PeerServer.addprops_new (s := PeerServer.alloc.addprop (cstring "ID") id) ps.noId
    (by rw [hFirst.2]; exact ps.nodup)
  refine ⟨_, t, hRun, ?_, ?_⟩
  · exact (hRest.1.trans hFirst.1).trans hId.symm
  · exact hRest.2.trans (by rw [hFirst.2]; rfl)

end

/-- A packet is read exactly when its addresses of slaves end with a zero; and the properties of a
peer are read as they were written. -/
theorem packets_read_exactly (env : Env) :
    (∀ packet, ReadExactly env packet ↔ Terminated env packet) ∧
      ∀ ps out ifc bytes, ∀ old : Text, udpSendPeerInfo env ps = some out → (ifc, bytes) ∈ out →
        (∀ a ∈ ps.list, 61 ∉ a.1.chars) →
          (∀ id, ps.id = some id → packetSize id ps.list ≤ maxPacketSize) →
        ∃ ps' t, run (readPeer bytes.length bytes.length 8 .alloc)
          (bytes ++ old.drop bytes.length) =
          some ((ps', true), t) ∧ ps'.id = ps.id ∧ ps'.list = ps.list := by
  refine ⟨readExactly_iff env, fun ps out ifc bytes old hSend hMem hNames hSize => ?_⟩
  obtain ⟨id, hId, hBytes⟩ := udpSendPeerInfo_packet hSend _ hMem
  obtain rfl : bytes = ackInfo id ps.list := hBytes
  exact ackInfo_read _ hId hNames (hSize id hId)

/-- A peer with one property. -/
def onePeer : PeerServer :=
  { (PeerServer.alloc.addprop (cstring "ID") (cstring "a")).addprop (cstring "Name")
    (cstring "b=c") with
    flags := ⟨true, false, true⟩ }

/-- Its packet, sent to the loopback interface. -/
theorem packets_read_exactly_peer : ∃ ps' t, run (readPeer 22 22 8 .alloc)
    (header 2 ++ ascii "ID=a" ++ [0] ++ ascii "Name=b=c" ++ [0] ++ []) = some ((ps', true), t) ∧
      ps'.id = onePeer.id ∧ ps'.list = onePeer.list :=
  (packets_read_exactly ⟨fun _ => none, fun _ => 0, 0, [⟨loopback, 0⟩], 1534, true⟩).2 onePeer
    _ _ _ [] rfl
    List.mem_cons_self (by decide) (fun id hId => by cases hId; decide)

/-- The address of a slave without a zero behind it: what an earlier packet has left there is read.
-/
theorem not_readExactly : ¬ ReadExactly ⟨fun _ => none, fun _ => 0, 0, [], 1534, true⟩
    ⟨header 4 ++ ascii "1000:1535:10.0.0.1", by decide⟩ := by
  intro h
  have hZeros : (List.replicate maxPacketSize (0 : UInt8)).length = maxPacketSize :=
    List.length_replicate
  obtain ⟨hInside, calls, t, -, hRun, -⟩ := h _ _ hZeros hZeros
  have hTerminated := terminated_of_within hZeros (within_iff.2 ⟨hInside, calls, t, hRun, trivial⟩)
  exact absurd (hTerminated rfl ⟨[0, 0, 0] ++ ascii "1000:1535:10.0.0.1", rfl⟩ (by decide))
    (by decide)

end TcfAgent.Discovery
