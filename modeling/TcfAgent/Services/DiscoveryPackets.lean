import TcfAgent.Lib.Scan
import TcfAgent.Framework.Peer

/-!
# The packets of the UDP discovery

The writers and readers of packets of `services/discovery_udp.c`. A packet is received in a buffer
where the rest of earlier packets is still behind it. Three kinds of packets are scanned for
strings: those with the properties of a peer, those with addresses of slaves, and those with the
names of peers that are gone.

Which packets are read without what is behind them is the subject of `DiscoveryReads`.
-/

namespace TcfAgent.Discovery

open TcfAgent.Lib TcfAgent.Lib.Scan TcfAgent.JsonText TcfAgent.Peer

/-! ## The environment -/

def maxPacketSize : Nat := 9000 - 40 - 8

/-- `PEER_DATA_RETENTION_PERIOD` -/
def peerDataRetentionPeriod : Int := 60

/-- `DISCOVERY_TCF_PORT` -/
def discoveryTcfPort : Nat := 1534

abbrev IpAddr := BitVec 32

/-- `INADDR_LOOPBACK` -/
def loopback : IpAddr := 0x7f000001

/-- `ip_ifc_info` -/
structure Interface where
  addr : IpAddr
  mask : IpAddr
deriving DecidableEq, Repr

/-- The functions of the C library and the variables that are read; `remote` is `is_remote` of the
sender. -/
structure Env where
  inetPton   : Text → Option IpAddr
  atoi       : Text → Int
  timenow    : Int
  ifcList    : List Interface
  serverPort : Nat
  remote     : Bool

/-- `is_ip_peer` -/
def isIpPeer (ps : PeerServer) : Bool :=
  match ps.getprop (cstring "TransportName") with
  | none => false
  | some prot => prot ∈ ["TCP", "SSL", "WS", "WSS", "HTTP"].map cstring

/-! ## Packets that are sent -/

/-- `app_char` -/
def appChar (buf : Text) (c : UInt8) : Text := if buf.length < maxPacketSize then buf ++
    [c] else buf

/-- `app_str` -/
def appStr (buf : Text) : Text → Text
  | [] => buf
  | c :: str => if buf.length < maxPacketSize then appStr (buf ++ [c]) str else buf

/-- `app_strz` -/
def appStrz (buf str : Text) : Text := appChar (appStr buf str) 0

/-- The first 8 bytes of `send_buf`. -/
def header (type : UInt8) : Text := ascii "TCF2" ++ [type, 0, 0, 0]

/-- The packet `UDP_ACK_INFO` of a peer. -/
def ackInfo (id : CString) (list : List Property) : Text :=
  list.foldl (fun buf a => appStrz (appChar (appStr buf a.1.chars) 61) a.2.chars)
    (appStrz (appStr (header 2) (ascii "ID=")) id.chars)

/-- The loop of `udp_send_peer_info` over the interfaces; `none` when an assertion fails. -/
def sendTo (env : Env) (isLocal : Bool) (peerAddr : Option IpAddr) (packet : Text) :
    List Interface → Option (List (Interface × Text))
  | [] => some []
  | ifc :: ifcs =>
    if ¬ isLocal ∧ (env.serverPort ≠ discoveryTcfPort ∨ peerAddr = none) then some []
    else if ¬ isLocal ∧ ifc.addr ≠ loopback ∧ some ifc.addr ≠ peerAddr then
      sendTo env isLocal peerAddr packet ifcs
    else if ifc.addr = loopback then (sendTo env isLocal peerAddr packet ifcs).map
      ((ifc, packet) :: ·)
    else
      match peerAddr with
      | none => sendTo env isLocal peerAddr packet ifcs
      | some addr =>
        if addr = 0 then none
        else if ifc.addr &&& ifc.mask ≠ addr &&& ifc.mask then sendTo env isLocal
          peerAddr packet ifcs
        else (sendTo env isLocal peerAddr packet ifcs).map ((ifc, packet) :: ·)

/-- `udp_send_peer_info`: the packets, with the interfaces. -/
def udpSendPeerInfo (env : Env) (ps : PeerServer) : Option (List (Interface × Text)) :=
  if ps.flags.isPrivate ∨ ¬ ps.flags.isDiscoverable then some []
  else
    match ps.id with
    | none => none -- a peer that is listed has an ID
    | some id =>
      let packet := ackInfo id ps.list
      if isIpPeer ps then
        match (ps.getprop (cstring "Host")).bind fun host => env.inetPton host.chars with
        | none => some []
        | some addr => sendTo env ps.flags.isLocal (some addr) packet env.ifcList
      else sendTo env ps.flags.isLocal none packet env.ifcList

/-! ## Packets that are received -/

/-- What a packet is taken for: a peer that is added, a slave with the time of its last packet, or a
peer that is removed if it is not a local one. -/
inductive Call where
  | peerServerAdd (ps : PeerServer)
  | addSlave (addr : IpAddr) (port : BitVec 16) (timestamp : Int)
  | peerServerRemove (id : CString)

/-- One round of the loop of `udp_receive_ack_info`: a name, a value, and the position behind them;
none for `p = NULL`. -/
def readProperty (e p : Nat) : Scan (Option (Text × Text × Nat)) := do
  let q ← scanTo (fun c => c = 0 || c = 61) (e - p) p
  if q < e then do
    let c ← byte q
    if c = 61 then do
      write q 0
      let r ← scanTo (fun c => c = 0) (e - (q + 1)) (q + 1)
      if r < e then do
        let name ← cstr maxPacketSize p
        let value ← cstr maxPacketSize (q + 1)
        return some (name, value, r + 1)
      else return none
    else return none
  else return none

/-- The loop of `udp_receive_ack_info`, and whether it has come to the end of the packet. -/
def readPeer (e : Nat) : (fuel : Nat) → Nat → PeerServer → Scan (PeerServer × Bool)
  | 0, p, ps => if p < e then .stuck else return (ps, true)
  | fuel + 1, p, ps =>
    if p < e then do
      match ← readProperty e p with
      | none => return (ps, false)
      | some (name, value, q) => readPeer e fuel q (ps.addprop (.ofText name) (.ofText value))
    else return (ps, true)

/-- Whether a peer that was read is added. -/
def acceptable (env : Env) (ps : PeerServer) : Bool :=
  ps.id ≠ none && isIpPeer ps &&
    match (ps.getprop (cstring "Host")).bind fun host => env.inetPton host.chars with
    | none => false
    | some addr => env.ifcList.any fun ifc => ifc.addr &&& ifc.mask = addr &&& ifc.mask

/-- `udp_receive_ack_info` -/
def udpReceiveAckInfo (env : Env) (rval : Nat) : Scan (List Call) := do
  let (ps, complete) ← readPeer rval rval 8 .alloc
  return if complete && acceptable env
    ps then [.peerServerAdd { ps with flags := ⟨false, false, true⟩ }] else []

/-- Forward to a colon, which becomes a zero, or to the end of the string. -/
def nextField (p : Nat) : Scan Nat := do
  let q ← scanTo (fun c => c = 0 || c = 58) maxPacketSize p
  let c ← byte q
  if c = 58 then do
    write q 0
    return q + 1
  else return q

/-- The loop over the digits of the time stamp. -/
def readStamp : (fuel : Nat) → Nat → BitVec 64 → Scan (BitVec 64)
  | 0, _, _ => .stuck
  | fuel + 1, p, ts => do
    let c ← byte p
    if 48 ≤ c ∧
      c ≤ 57 then readStamp fuel (p + 1) (ts * 10 + BitVec.ofNat 64 (c.toNat - 48)) else return ts

/-- `get_slave_addr`: the next position, and the address, port and time stamp. -/
def getSlaveAddr (env : Env) (pos : Nat) :
    Scan (Nat × Option (IpAddr × BitVec 16 × BitVec 64)) := do
  let str ← cstr maxPacketSize pos
  let port ← nextField pos
  let host ← nextField port
  let next := pos + str.length + 1
  let hostStr ← cstr maxPacketSize host
  match env.inetPton hostStr with
  | none => return (next, none)
  | some addr => do
    let portStr ← cstr maxPacketSize port
    if env.atoi portStr = discoveryTcfPort then return (next, none)
    else do
      let ts ← readStamp maxPacketSize pos 0
      return (next, some (addr, BitVec.ofInt 16 (env.atoi portStr), ts))

/-- The time of the last packet of a slave, from its time stamp. -/
def slaveTime (timenow : Int) (timestamp : BitVec 64) : Int :=
  let timeval :=
    if timestamp < 3600000 then timenow + (timestamp / 1000).toInt - peerDataRetentionPeriod
    else if timestamp < BitVec.ofInt 64 timenow + 50000000 then timestamp.toInt
    else (timestamp / 1000).toInt
  if timeval < timenow - 600 ∨
    timeval > timenow + 600 then timenow - peerDataRetentionPeriod / 2 else timeval

/-- The loop of `udp_receive_ack_slaves`. -/
def readSlaves (env : Env) (len : Nat) : (fuel : Nat) → Nat → Scan (List Call)
  | 0, pos => if pos < len then .stuck else return []
  | fuel + 1, pos =>
    if pos < len then do
      let (next, slave) ← getSlaveAddr env pos
      let calls ← readSlaves env len fuel next
      match slave with
      | none => return calls
      | some (addr, port, ts) => return .addSlave addr port (slaveTime env.timenow ts) :: calls
    else return []

/-- `udp_receive_ack_slaves` -/
def udpReceiveAckSlaves (env : Env) (rval : Nat) : Scan (List Call) := readSlaves env rval rval 8

/-- The loop of `udp_receive_peer_removed`. -/
def readRemoved (e : Nat) : (fuel : Nat) → Nat → Scan (List Call)
  | 0, p => if p < e then .stuck else return []
  | fuel + 1, p =>
    if p < e then do
      let q ← scanTo (fun c => c = 0) (e - p) p
      if q < e then do
        let id ← cstr maxPacketSize p
        let next ← scanTo (fun c => c ≠ 0) (e - q) q
        let calls ← readRemoved e fuel next
        return .peerServerRemove (.ofText id) :: calls
      else readRemoved e fuel q
    else return []

/-- `udp_receive_peer_removed` -/
def udpReceivePeerRemoved (rval : Nat) : Scan (List Call) := readRemoved rval rval 8

/-- `udp_server_recv`, for a packet of `rval` bytes: what it is taken for by one of these functions.
-/
def udpServerRecv (env : Env) (rval : Nat) : Scan (List Call) :=
  if rval ≥ 8 then do
    let c0 ← byte 0
    let c1 ← byte 1
    let c2 ← byte 2
    let c3 ← byte 3
    if [c0, c1, c2, c3] = ascii "TCF2" ∧ env.remote then do
      let type ← byte 4
      if type = 5 then udpReceivePeerRemoved rval
      else if type = 2 then udpReceiveAckInfo env rval
      else if type = 4 then udpReceiveAckSlaves env rval
      else return []
    else return []
  else return []

/-! ## What is expected -/

/-- A packet that can be received. -/
structure Packet where
  bytes : Text
  le    : bytes.length ≤ maxPacketSize

/-- `recv_buf` behind a packet: the rest is what was there. -/
def Packet.received (packet : Packet) (old : Text) : Text :=
    packet.bytes ++ old.drop packet.bytes.length

/-- Whatever is behind the packet, its bytes are the only ones that are looked at, and it is always
taken for the same. -/
def ReadExactly (env : Env) (packet : Packet) : Prop :=
  ∀ old old', old.length = maxPacketSize → old'.length = maxPacketSize →
    (∀ i ∈ looks (udpServerRecv env packet.bytes.length) (packet.received old),
    i < packet.bytes.length) ∧
      ∃ calls t t', run (udpServerRecv env packet.bytes.length) (packet.received old) =
        some (calls, t) ∧
        run (udpServerRecv env packet.bytes.length) (packet.received old') = some (calls, t')

/-- A packet with addresses of slaves ends with a zero, if there are any. -/
def Terminated (env : Env) (packet : Packet) : Prop :=
  env.remote → ascii "TCF2" ++ [4] <+: packet.bytes → 8 < packet.bytes.length →
    packet.bytes.getLast? = some 0

/-- The bytes of the packet of a peer. -/
def packetSize (id : CString) (list : List Property) : Nat :=
  8 + (3 + id.chars.length + 1) + (list.map fun a =>
    a.1.chars.length + 1 + a.2.chars.length + 1).sum

end TcfAgent.Discovery
