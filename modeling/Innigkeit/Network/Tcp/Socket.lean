import Innigkeit.Network.Tcp.Segment

/-!
The TCP socket table of `network/tcp/Socket.zig`. Every operation runs under the
table's one lock and is a function from table to table. Of a frame that is sent
only the effect on the sending socket is kept; `Env` is what the operation
reads from the network card, the ARP cache and the clock.
-/

namespace Innigkeit.Network.Tcp

def TCP_MAX : Nat := 8

def MSS : Nat := 1460

def RCV_WND : Nat := 8192

def RX_BUF_SIZE : Nat := 8192

instance : NeZero TCP_MAX := ⟨by decide⟩

instance : NeZero RX_BUF_SIZE := ⟨by decide⟩

abbrev Slot := Fin TCP_MAX

abbrev Task := Nat

/-- Who a socket belongs to; `0` is the kernel itself. -/
abbrev Owner := BitVec 64

inductive State where
  | closed
  | listen
  | synSent
  | synReceived
  | established
  | finWait1
  | finWait2
  | closeWait
  | lastAck
  | timeWait
  deriving DecidableEq, Repr

/-- `acceptSlot` is `none` where the source has -1. An undefined buffer is filled with 0xAA. -/
structure Socket where
  state : State := .closed
  inUse : Bool := false
  owner : Owner := 0
  isListener : Bool := false
  localPort : Port := 0
  remoteIp : Ip := 0
  remotePort : Port := 0
  sndUna : BitVec 32 := 0
  sndNxt : BitVec 32 := 0
  rcvNxt : BitVec 32 := 0
  rxBuf : Fin RX_BUF_SIZE → Byte := fun _ => 0xAA
  rxHead : BitVec 16 := 0
  rxTail : BitVec 16 := 0
  recvFin : Bool := false
  acceptSlot : Option Slot := none
  waiters : List Task := []

abbrev Sockets := Slot → Socket

structure Env where
  mac : Option (BitVec 48)
  ip : Option Ip
  arpLookup : Ip → Option (BitVec 48)
  uptimeMs : BitVec 64

namespace Socket

def rxIndex (counter : BitVec 16) : Fin RX_BUF_SIZE := Fin.ofNat RX_BUF_SIZE counter.toNat

def rxAvail (self : Socket) : BitVec 16 := self.rxTail - self.rxHead

def rxPush (self : Socket) : List Byte → Socket
  | [] => self
  | b :: data =>
    if self.rxTail + 1 = self.rxHead then self
    else
      rxPush { self with
        rxBuf := Function.update self.rxBuf (rxIndex self.rxTail) b
        rxTail := self.rxTail + 1 } data

theorem rxPush_rest (s : Socket) (data : List Byte) :
    s.rxPush data =
      { s with rxBuf := (s.rxPush data).rxBuf, rxTail := (s.rxPush data).rxTail } := by
  induction data generalizing s with
  | nil => rfl
  | cons b data ih =>
    rw [rxPush]
    split
    · rfl
    · rw [ih]

@[simp]
theorem rxPush_rcvNxt (s : Socket) (data : List Byte) : (s.rxPush data).rcvNxt = s.rcvNxt := by
  rw [rxPush_rest]

@[simp]
theorem rxPush_recvFin (s : Socket) (data : List Byte) : (s.rxPush data).recvFin = s.recvFin := by
  rw [rxPush_rest]

@[simp]
theorem rxPush_state (s : Socket) (data : List Byte) : (s.rxPush data).state = s.state := by
  rw [rxPush_rest]

@[simp]
theorem rxPush_sndUna (s : Socket) (data : List Byte) : (s.rxPush data).sndUna = s.sndUna := by
  rw [rxPush_rest]

@[simp]
theorem rxPush_inUse (s : Socket) (data : List Byte) : (s.rxPush data).inUse = s.inUse := by
  rw [rxPush_rest]

@[simp]
theorem rxPush_isListener (s : Socket) (data : List Byte) :
    (s.rxPush data).isListener = s.isListener := by
  rw [rxPush_rest]

@[simp]
theorem rxPush_acceptSlot (s : Socket) (data : List Byte) :
    (s.rxPush data).acceptSlot = s.acceptSlot := by
  rw [rxPush_rest]

@[simp]
theorem rxPush_waiters (s : Socket) (data : List Byte) : (s.rxPush data).waiters = s.waiters := by
  rw [rxPush_rest]

def rxPop (self : Socket) : Nat → List Byte × Socket
  | 0 => ([], self)
  | len + 1 =>
    if self.rxHead = self.rxTail then ([], self)
    else
      let (bytes, s) := rxPop { self with rxHead := self.rxHead + 1 } len
      (self.rxBuf (rxIndex self.rxHead) :: bytes, s)

theorem rxPop_rest (s : Socket) (len : Nat) :
    (s.rxPop len).2 = { s with rxHead := (s.rxPop len).2.rxHead } := by
  induction len generalizing s with
  | zero => rfl
  | succ len ih =>
    rw [rxPop]
    split
    · rfl
    · rw [ih]

/-- The frame goes out only if the card is up, the frame fits and the peer's address is known. -/
def goesOut (env : Env) (sock : Socket) (flags : Flags) (payload : List Byte) : Bool :=
  env.mac.isSome && env.ip.isSome &&
    (if flags.syn then 24 else 20) + payload.length ≤ 24 + 1460 &&
    (env.arpLookup sock.remoteIp).isSome

def send (env : Env) (sock : Socket) (flags : Flags) (payload : List Byte) : Socket :=
  if goesOut env sock flags payload then
    let sndNxt := if flags.syn ∨ flags.fin then sock.sndNxt + 1 else sock.sndNxt
    { sock with sndNxt := sndNxt + BitVec.ofNat 32 payload.length }
  else sock

section

variable (env : Env) (s : Socket) (flags : Flags) (payload : List Byte)

theorem send_eq :
    send env s flags payload = { s with sndNxt := (send env s flags payload).sndNxt } := by
  unfold send
  split <;> rfl

@[simp]
theorem send_state : (send env s flags payload).state = s.state := by
  rw [send_eq]

@[simp]
theorem send_inUse : (send env s flags payload).inUse = s.inUse := by
  rw [send_eq]

@[simp]
theorem send_isListener : (send env s flags payload).isListener = s.isListener := by
  rw [send_eq]

@[simp]
theorem send_localPort : (send env s flags payload).localPort = s.localPort := by
  rw [send_eq]

@[simp]
theorem send_remoteIp : (send env s flags payload).remoteIp = s.remoteIp := by
  rw [send_eq]

@[simp]
theorem send_remotePort : (send env s flags payload).remotePort = s.remotePort := by
  rw [send_eq]

@[simp]
theorem send_owner : (send env s flags payload).owner = s.owner := by
  rw [send_eq]

@[simp]
theorem send_sndUna : (send env s flags payload).sndUna = s.sndUna := by
  rw [send_eq]

@[simp]
theorem send_rcvNxt : (send env s flags payload).rcvNxt = s.rcvNxt := by
  rw [send_eq]

@[simp]
theorem send_rxBuf : (send env s flags payload).rxBuf = s.rxBuf := by
  rw [send_eq]

@[simp]
theorem send_rxHead : (send env s flags payload).rxHead = s.rxHead := by
  rw [send_eq]

@[simp]
theorem send_rxTail : (send env s flags payload).rxTail = s.rxTail := by
  rw [send_eq]

@[simp]
theorem send_recvFin : (send env s flags payload).recvFin = s.recvFin := by
  rw [send_eq]

@[simp]
theorem send_acceptSlot : (send env s flags payload).acceptSlot = s.acceptSlot := by
  rw [send_eq]

@[simp]
theorem send_waiters : (send env s flags payload).waiters = s.waiters := by
  rw [send_eq]

end

def closeLocked (env : Env) (s : Socket) : Socket :=
  let s :=
    if s.state = .established ∨ s.state = .closeWait then
      send env { s with state := if s.state = .established then .finWait1 else .lastAck }
        { ack := true, fin := true } []
    else s
  -- Every task blocked in `accept` is woken.
  { s with inUse := false, state := .closed, waiters := [] }

def handleSynSent (env : Env) (s : Socket) (incoming : Segment) : Socket :=
  if !incoming.flags.syn then s
  else
    let s := { s with rcvNxt := incoming.seq + 1 }
    if incoming.flags.ack then
      send env { s with sndUna := incoming.ack, state := .established } { ack := true } []
    else { send env s { rst := true } [] with state := .closed, inUse := false }

def handleEstablished (env : Env) (s : Socket) (incoming : Segment) : Socket :=
  if incoming.flags.rst then { s with state := .closed, inUse := false }
  else if !incoming.flags.ack then s
  else
    let s := { s with sndUna := incoming.ack }
    let s :=
      if 0 < incoming.payload.length then
        let s := s.rxPush incoming.payload
        send env { s with rcvNxt := s.rcvNxt + BitVec.ofNat 32 incoming.payload.length }
          { ack := true } []
      else s
    if incoming.flags.fin then
      send env { s with rcvNxt := s.rcvNxt + 1, recvFin := true, state := .closeWait }
        { ack := true } []
    else s

theorem handleEstablished_fields (env : Env) (s : Socket) {incoming : Segment}
    (hrst : incoming.flags.rst = false) (hack : incoming.flags.ack = true) :
    (handleEstablished env s incoming).sndUna = incoming.ack ∧
      (handleEstablished env s incoming).state =
        (if incoming.flags.fin then .closeWait else s.state) ∧
      (handleEstablished env s incoming).rcvNxt =
        s.rcvNxt + BitVec.ofNat 32 incoming.payload.length +
          if incoming.flags.fin then 1 else 0 := by
  by_cases hlen : 0 < incoming.payload.length
  · cases hfin : incoming.flags.fin <;> simp [handleEstablished, hrst, hack, hlen, hfin]
  · have hnil : incoming.payload = [] := List.length_eq_zero_iff.mp (by omega)
    cases hfin : incoming.flags.fin <;> simp [handleEstablished, hrst, hack, hnil, hfin]

def handleFinWait (env : Env) (s : Socket) (incoming : Segment) : Socket :=
  let s := if incoming.flags.ack then { s with sndUna := incoming.ack } else s
  let s :=
    if s.state = .finWait1 ∧ incoming.flags.ack ∧ incoming.ack = s.sndNxt then
      { s with state := .finWait2 }
    else s
  if incoming.flags.fin then
    { send env { s with rcvNxt := s.rcvNxt + 1 } { ack := true } [] with
      state := .closed, inUse := false }
  else s

def handleLastAck (s : Socket) (incoming : Segment) : Socket :=
  if incoming.flags.ack ∧ incoming.ack = s.sndNxt then { s with state := .closed, inUse := false }
  else s

end Socket

open Socket Function

/-- The scan of `findSocket`: the connection if there is one, else the last listener seen. -/
def findSocketIn (sockets : Sockets) (dstPort : Port) (srcIp : Ip) (srcPort : Port) :
    List Slot → Option Slot → Option Slot
  | [], listener => listener
  | i :: slots, listener =>
    let s := sockets i
    if !s.inUse then findSocketIn sockets dstPort srcIp srcPort slots listener
    else if s.localPort ≠ dstPort then findSocketIn sockets dstPort srcIp srcPort slots listener
    else if s.isListener then findSocketIn sockets dstPort srcIp srcPort slots (some i)
    else if s.remoteIp = srcIp ∧ s.remotePort = srcPort then some i
    else findSocketIn sockets dstPort srcIp srcPort slots listener

def findSocket (sockets : Sockets) (dstPort : Port) (srcIp : Ip) (srcPort : Port) : Option Slot :=
  findSocketIn sockets dstPort srcIp srcPort (List.finRange TCP_MAX) none

def allocSlot (sockets : Sockets) : Option Slot :=
  (List.finRange TCP_MAX).find? fun i => !(sockets i).inUse

def ownedLocked (sockets : Sockets) (owner : Owner) (id : Nat) : Option Slot :=
  if h : id < TCP_MAX then
    if (sockets ⟨id, h⟩).inUse ∧ (sockets ⟨id, h⟩).owner = owner then some ⟨id, h⟩ else none
  else none

def initialSequence (env : Env) : BitVec 32 := (env.uptimeMs * 0x9E3779B1).truncate 32

def openListener (sockets : Sockets) (owner : Owner) (port : Port) : Option Slot × Sockets :=
  match allocSlot sockets with
  | none => (none, sockets)
  | some i =>
    (some i, update sockets i
      { inUse := true, owner := owner, isListener := true, state := .listen, localPort := port })

def openConnect (env : Env) (sockets : Sockets) (owner : Owner) (srcPort : Port) (dstIp : Ip)
    (dstPort : Port) : Option Slot × Sockets :=
  if env.mac.isNone ∨ env.ip.isNone then (none, sockets)
  else
    match allocSlot sockets with
    | none => (none, sockets)
    | some i =>
      let isn := initialSequence env
      (some i, update sockets i
        (send env
          { inUse := true, owner := owner, state := .synSent, localPort := srcPort,
            remoteIp := dstIp, remotePort := dstPort, sndUna := isn, sndNxt := isn }
          { syn := true } []))

/-- What one pass of the loop in `accept` does. -/
inductive Accept where
  | invalid
  | connection (slot : Slot)
  | blocked
  deriving DecidableEq, Repr

/-- One pass of the loop in `accept`, which a woken task makes again from the start. -/
def accept (sockets : Sockets) (task : Task) (owner : Owner) (id : Nat) : Accept × Sockets :=
  match ownedLocked sockets owner id with
  | none => (.invalid, sockets)
  | some l =>
    if !(sockets l).isListener then (.invalid, sockets)
    else
      match (sockets l).acceptSlot with
      | some slot => (.connection slot, update sockets l { sockets l with acceptSlot := none })
      | none =>
        (.blocked, update sockets l
          { sockets l with waiters := (sockets l).waiters ++ [task] })

def sendData (env : Env) (sockets : Sockets) (owner : Owner) (id : Nat) (data : List Byte) :
    Nat × Sockets :=
  match ownedLocked sockets owner id with
  | none => (0, sockets)
  | some i =>
    if (sockets i).state ≠ .established then (0, sockets)
    else
      (min data.length MSS,
        update sockets i (send env (sockets i) { ack := true } (data.take MSS)))

def recvData (sockets : Sockets) (owner : Owner) (id : Nat) (len : Nat) : List Byte × Sockets :=
  match ownedLocked sockets owner id with
  | none => ([], sockets)
  | some i => (((sockets i).rxPop len).1, update sockets i ((sockets i).rxPop len).2)

def closeSocket (env : Env) (sockets : Sockets) (owner : Owner) (id : Nat) : Sockets :=
  match ownedLocked sockets owner id with
  | none => sockets
  | some i => update sockets i (closeLocked env (sockets i))

def reown (sockets : Sockets) (fromOwner toOwner : Owner) (id : Nat) : Bool × Sockets :=
  match ownedLocked sockets fromOwner id with
  | none => (false, sockets)
  | some i => (true, update sockets i { sockets i with owner := toOwner })

def closeAllOwnedBy (env : Env) (sockets : Sockets) (owner : Owner) : Sockets := fun i =>
  if (sockets i).inUse ∧ (sockets i).owner = owner then closeLocked env (sockets i) else sockets i

def handleListen (env : Env) (sockets : Sockets) (listener : Slot) (srcIp : Ip)
    (incoming : Segment) : Sockets :=
  if !incoming.flags.syn ∨ incoming.flags.ack then sockets
  else
    match allocSlot sockets with
    | none => sockets
    | some child =>
      let isn := initialSequence env
      update sockets child
        (send env
          { inUse := true, state := .synReceived, owner := (sockets listener).owner,
            localPort := (sockets listener).localPort, remoteIp := srcIp,
            remotePort := incoming.srcPort, sndUna := isn, sndNxt := isn,
            rcvNxt := incoming.seq + 1 }
          { syn := true, ack := true } [])

/-- The first listening socket on a port, to which a completed handshake is announced. -/
def announcedTo (sockets : Sockets) (port : Port) : Option Slot :=
  (List.finRange TCP_MAX).find? fun l =>
    (sockets l).isListener && (sockets l).state = .listen && (sockets l).localPort = port

/-- Tell the listener that a connection is ready and wake one blocked `accept`. -/
def announce (sockets : Sockets) (slot : Slot) (port : Port) : Sockets :=
  match announcedTo sockets port with
  | none => sockets
  | some l =>
    update sockets l
      { sockets l with acceptSlot := some slot, waiters := (sockets l).waiters.tail }

theorem announce_rest (sockets : Sockets) (slot : Slot) (port : Port) (i : Slot) :
    announce sockets slot port i = { sockets i with
      acceptSlot := (announce sockets slot port i).acceptSlot
      waiters := (announce sockets slot port i).waiters } := by
  unfold announce
  cases announcedTo sockets port with
  | none => rfl
  | some l =>
    by_cases hi : i = l
    · subst hi
      simp
    · simp [update_of_ne hi]

def handleSynReceived (sockets : Sockets) (slot : Slot) (incoming : Segment) : Sockets :=
  let s := sockets slot
  if incoming.flags.rst then update sockets slot { s with state := .closed, inUse := false }
  else if !incoming.flags.ack then sockets
  else if incoming.ack ≠ s.sndNxt then sockets
  else
    announce (update sockets slot { s with sndUna := incoming.ack, state := .established }) slot
      s.localPort

def dispatch (env : Env) (sockets : Sockets) (slot : Slot) (srcIp : Ip) (incoming : Segment) :
    Sockets :=
  let s := sockets slot
  match s.state with
  | .listen => handleListen env sockets slot srcIp incoming
  | .synSent => update sockets slot (handleSynSent env s incoming)
  | .synReceived => handleSynReceived sockets slot incoming
  | .established => update sockets slot (handleEstablished env s incoming)
  | .finWait1 | .finWait2 => update sockets slot (handleFinWait env s incoming)
  | .closeWait | .lastAck => update sockets slot (handleLastAck s incoming)
  | .closed | .timeWait => sockets

def handleSegment (env : Env) (sockets : Sockets) (srcIp : Ip) (data : List Byte) : Sockets :=
  match parse data with
  | none => sockets
  | some incoming =>
    match findSocket sockets incoming.dstPort srcIp incoming.srcPort with
    | none => sockets
    | some slot => dispatch env sockets slot srcIp incoming

/-- One operation on the table, from the system call layer or from the network poller. -/
inductive Operation where
  | openListener (owner : Owner) (port : Port)
  | openConnect (env : Env) (owner : Owner) (srcPort : Port) (dstIp : Ip) (dstPort : Port)
  | accept (task : Task) (owner : Owner) (id : Nat)
  | sendData (env : Env) (owner : Owner) (id : Nat) (data : List Byte)
  | recvData (owner : Owner) (id len : Nat)
  | closeSocket (env : Env) (owner : Owner) (id : Nat)
  | reown (fromOwner toOwner : Owner) (id : Nat)
  | closeAllOwnedBy (env : Env) (owner : Owner)
  | segment (env : Env) (srcIp dstIp : Ip) (data : List Byte)

def perform (sockets : Sockets) : Operation → Sockets
  | .openListener owner port => (openListener sockets owner port).2
  | .openConnect env owner srcPort dstIp dstPort =>
    (openConnect env sockets owner srcPort dstIp dstPort).2
  | .accept task owner id => (accept sockets task owner id).2
  | .sendData env owner id data => (sendData env sockets owner id data).2
  | .recvData owner id len => (recvData sockets owner id len).2
  | .closeSocket env owner id => closeSocket env sockets owner id
  | .reown fromOwner toOwner id => (reown sockets fromOwner toOwner id).2
  | .closeAllOwnedBy env owner => closeAllOwnedBy env sockets owner
  | .segment env srcIp _ data => handleSegment env sockets srcIp data

def target (sockets : Sockets) (srcIp : Ip) (data : List Byte) : Option (Segment × Slot) := do
  let incoming ← parse data
  let slot ← findSocket sockets incoming.dstPort srcIp incoming.srcPort
  return (incoming, slot)

def opened (sockets : Sockets) : Operation → Option Slot
  | .openListener _ _ => allocSlot sockets
  | .openConnect env _ _ _ _ =>
    if env.mac.isNone ∨ env.ip.isNone then none else allocSlot sockets
  | .segment _ srcIp _ data => do
    let incoming ← parse data
    let slot ← findSocket sockets incoming.dstPort srcIp incoming.srcPort
    if (sockets slot).state = .listen ∧ incoming.flags.syn ∧ !incoming.flags.ack then
      allocSlot sockets
    else none
  | _ => none

inductive Effect (sockets : Sockets) (i : Slot) : Operation → Socket → Prop
  | kept {op : Operation} : Effect sockets i op (sockets i)
  | opened {op : Operation} {s : Socket} (h : opened sockets op = some i)
      (hin : s.inUse = true) : Effect sockets i op s
  | waits {task : Task} {owner : Owner} {id : Nat}
      (howned : ownedLocked sockets owner id = some i) (hl : (sockets i).isListener = true)
      (h : (sockets i).acceptSlot = none) :
      Effect sockets i (.accept task owner id)
        { sockets i with acceptSlot := none, waiters := (sockets i).waiters ++ [task] }
  | takes {task : Task} {owner : Owner} {id : Nat} {j : Slot}
      (howned : ownedLocked sockets owner id = some i) (hl : (sockets i).isListener = true)
      (h : (sockets i).acceptSlot = some j) :
      Effect sockets i (.accept task owner id) { sockets i with acceptSlot := none }
  | sends {env : Env} {owner : Owner} {id : Nat} {data : List Byte} :
      Effect sockets i (.sendData env owner id data)
        (send env (sockets i) { ack := true } (data.take MSS))
  | receives {owner : Owner} {id len : Nat} :
      Effect sockets i (.recvData owner id len) ((sockets i).rxPop len).2
  | closes {env : Env} {owner : Owner} {id : Nat} (h : ownedLocked sockets owner id = some i) :
      Effect sockets i (.closeSocket env owner id) (closeLocked env (sockets i))
  | closesAll {env : Env} {owner : Owner} (hin : (sockets i).inUse = true)
      (h : (sockets i).owner = owner) :
      Effect sockets i (.closeAllOwnedBy env owner) (closeLocked env (sockets i))
  | reowned {fromOwner toOwner : Owner} {id : Nat}
      (howned : ownedLocked sockets fromOwner id = some i) :
      Effect sockets i (.reown fromOwner toOwner id) { sockets i with owner := toOwner }
  | synSent {env : Env} {srcIp dstIp : Ip} {data : List Byte} {incoming : Segment}
      (h : target sockets srcIp data = some (incoming, i)) (hstate : (sockets i).state = .synSent) :
      Effect sockets i (.segment env srcIp dstIp data) (handleSynSent env (sockets i) incoming)
  | synReceived {env : Env} {srcIp dstIp : Ip} {data : List Byte} {incoming : Segment} {slot : Slot}
      (h : target sockets srcIp data = some (incoming, slot))
      (hstate : (sockets slot).state = .synReceived) :
      Effect sockets i (.segment env srcIp dstIp data) (handleSynReceived sockets slot incoming i)
  | established {env : Env} {srcIp dstIp : Ip} {data : List Byte} {incoming : Segment}
      (h : target sockets srcIp data = some (incoming, i))
      (hstate : (sockets i).state = .established) :
      Effect sockets i (.segment env srcIp dstIp data) (handleEstablished env (sockets i) incoming)
  | finWait {env : Env} {srcIp dstIp : Ip} {data : List Byte} {incoming : Segment}
      (h : target sockets srcIp data = some (incoming, i))
      (hstate : (sockets i).state = .finWait1 ∨ (sockets i).state = .finWait2) :
      Effect sockets i (.segment env srcIp dstIp data) (handleFinWait env (sockets i) incoming)
  | lastAck {env : Env} {srcIp dstIp : Ip} {data : List Byte} {incoming : Segment}
      (h : target sockets srcIp data = some (incoming, i))
      (hstate : (sockets i).state = .closeWait ∨ (sockets i).state = .lastAck) :
      Effect sockets i (.segment env srcIp dstIp data) (handleLastAck (sockets i) incoming)

section

variable {sockets : Sockets} {i j : Slot} {op : Operation} {s : Socket}

theorem Effect.update (h : Effect sockets j op s) :
    Effect sockets i op (Function.update sockets j s i) := by
  by_cases hi : i = j
  · subst hi
    rwa [update_self]
  · rw [update_of_ne hi]
    exact .kept

theorem segment_effect (sockets : Sockets) (i : Slot) (env : Env) (srcIp dstIp : Ip)
    (data : List Byte) :
    Effect sockets i (.segment env srcIp dstIp data) (handleSegment env sockets srcIp data i) := by
  unfold handleSegment
  cases hparse : parse data with
  | none => exact .kept
  | some incoming =>
    dsimp only
    cases hfind : findSocket sockets incoming.dstPort srcIp incoming.srcPort with
    | none => exact .kept
    | some slot =>
      have htarget : target sockets srcIp data = some (incoming, slot) := by
        simp [target, hparse, hfind]
      simp only [dispatch]
      cases hstate : (sockets slot).state with
      | listen =>
        simp only [handleListen]
        split
        · exact .kept
        · cases hslot : allocSlot sockets with
          | none => exact .kept
          | some child =>
            refine .update (.opened ?_ (send_inUse ..))
            simp only [opened, hparse, hfind, Option.bind_eq_bind, Option.bind_some, hstate]
            rw [if_pos (by grind), hslot]
      | synSent => exact .update (.synSent htarget hstate)
      | synReceived => exact .synReceived htarget hstate
      | established => exact .update (.established htarget hstate)
      | finWait1 => exact .update (.finWait htarget (.inl hstate))
      | finWait2 => exact .update (.finWait htarget (.inr hstate))
      | closeWait => exact .update (.lastAck htarget (.inl hstate))
      | lastAck => exact .update (.lastAck htarget (.inr hstate))
      | closed | timeWait => exact .kept

theorem perform_effect (sockets : Sockets) (op : Operation) (i : Slot) :
    Effect sockets i op (perform sockets op i) := by
  cases op with
  | openListener owner port =>
    simp only [perform, openListener]
    cases hslot : allocSlot sockets with
    | none => exact .kept
    | some j => exact .update (.opened (by exact hslot) rfl)
  | openConnect env owner srcPort dstIp dstPort =>
    simp only [perform, openConnect]
    split
    · exact .kept
    · next hup =>
      cases hslot : allocSlot sockets with
      | none => exact .kept
      | some j =>
        refine .update (.opened ?_ (send_inUse ..))
        rw [opened, if_neg hup, hslot]
  | accept task owner id =>
    simp only [perform, accept]
    cases howned : ownedLocked sockets owner id with
    | none => exact .kept
    | some l =>
      dsimp only
      split
      · exact .kept
      · next hl =>
        cases hslot : (sockets l).acceptSlot with
        | none =>
          dsimp only
          exact .update (.waits howned (by simpa using hl) hslot)
        | some j =>
          dsimp only
          exact .update (.takes howned (by simpa using hl) hslot)
  | sendData env owner id data =>
    simp only [perform, sendData]
    cases ownedLocked sockets owner id with
    | none => exact .kept
    | some j =>
      dsimp only
      split
      · exact .kept
      · exact .update .sends
  | recvData owner id len =>
    simp only [perform, recvData]
    cases ownedLocked sockets owner id with
    | none => exact .kept
    | some j => exact .update .receives
  | closeSocket env owner id =>
    simp only [perform, closeSocket]
    cases howned : ownedLocked sockets owner id with
    | none => exact .kept
    | some j => exact .update (.closes howned)
  | reown fromOwner toOwner id =>
    simp only [perform, reown]
    cases howned : ownedLocked sockets fromOwner id with
    | none => exact .kept
    | some j => exact .update (.reowned howned)
  | closeAllOwnedBy env owner =>
    simp only [perform, closeAllOwnedBy]
    split
    · next h => exact .closesAll h.1 h.2
    · exact .kept
  | segment env srcIp dstIp data => exact segment_effect ..

end

end Innigkeit.Network.Tcp
