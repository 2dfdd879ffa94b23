import Innigkeit.Capabilities.Message
import Innigkeit.Library.Transition

/-!
Endpoints, the rendezvous channels between tasks, with the part of the
`recv_call` system call that turns a caller into a reply capability and with the
reply capabilities themselves. Every section under the endpoint's lock is one
step; a receiver that was woken takes the lock again in a step of its own.

The handles that `transferCaps` leaves in a message come with the step. Some
fields only record what happens: each task numbers its sends and calls, and a
message carries its task and number; `handed` and `returned` list the messages
given to receivers and returned by them, `calls` and `woken` the calls that were
made and those that were ended, `answering` the call a receiver has still to
answer, and `deliveries` what a reply was meant for and what it ended.
-/

namespace Innigkeit.Capabilities.Endpoint

/-- A message on its way to a receiver; only the initial `pending_msg` has no origin. -/
structure Sent (Task : Type*) where
  origin : Option (Task × ℕ)
  isCall : Bool
  msg : Message
  deriving DecidableEq

/-- The receive operations. -/
inductive RecvOp where
  | recv | replyRecv | recvCall
  deriving DecidableEq, Repr

inductive Pc (Task : Type*) where
  | idle
  | sendParked
  | callParked
  | recvParked (op : RecvOp)
  | recvWoken (op : RecvOp)
  /-- The `recv_call` handler after `recvCall` has returned. -/
  | handling (request : Sent Task) (sender : Option Task)
  /-- `Reply.send`, or the destructor when `issued` is `none`, has taken the caller. -/
  | replying (caller : Task) (msg : Message) (issued : Option (Sent Task))
  deriving DecidableEq

/-- A Reply object; `request` is the message it was created for. -/
structure Reply (Task : Type*) where
  sender : Option Task
  request : Sent Task
  deriving DecidableEq

/-- How the rest of the `recv_call` handler ends. -/
inductive HandlerOutcome where
  | writeUserFails
  | createFails
  | tableFull
  | inserted
  deriving DecidableEq, Repr

inductive Action where
  | send (msg : Message) (caps : Caps)
  | call (msg : Message) (caps : Caps)
  | recv (caps : Caps)
  | recvCall (caps : Caps)
  | reply (msg : Message) (caps : Caps)
  | replyRecv (msg : Message) (replyCaps caps : Caps)
  | relock
  | handle (outcome : HandlerOutcome)
  | replySend (index : ℕ) (msg : Message) (caps : Caps)
  | replyDestroy (index : ℕ)
  | deliver

/-- The call a reply was issued for and the call of the task it was delivered to. -/
structure Delivery (Task : Type*) where
  issuedFor : Option (Task × ℕ)
  delivered : Option (Task × ℕ)
  deriving DecidableEq

structure State (Task : Type*) where
  sendQueue : List Task
  recvQueue : List Task
  callQueue : List Task
  pendingMsg : Sent Task
  pendingSender : Option Task
  ipcMessage : Task → Message
  replies : List (Reply Task)
  pc : Task → Pc Task
  -- what has happened so far
  number : Task → ℕ
  handed : List (Sent Task)
  returned : List (Sent Task)
  calls : List (Task × ℕ)
  woken : List (Task × ℕ)
  answering : Task → Option (Task × ℕ)
  deliveries : List (Delivery Task)

variable {Task : Type*} [DecidableEq Task]

open Function

def callOf (sent : Sent Task) : Option (Task × ℕ) := if sent.isCall then sent.origin else none

/-- Where a receive operation leaves its task. -/
def RecvOp.after (sent : Sent Task) (sender : Option Task) : RecvOp → Pc Task
  | .recvCall => .handling sent sender
  | .recv | .replyRecv => .idle

/-- The call to be answered by `reply` after a receive operation. -/
def RecvOp.answering (sent : Sent Task) (before : Option (Task × ℕ)) :
    RecvOp → Option (Task × ℕ)
  | .recvCall => before
  | .recv | .replyRecv => (callOf sent).or before

namespace State

def init : State Task where
  sendQueue := []
  recvQueue := []
  callQueue := []
  pendingMsg := { origin := none, isCall := false, msg := {} }
  pendingSender := none
  ipcMessage := fun _ => {}
  replies := []
  pc := fun _ => .idle
  number := fun _ => 0
  handed := []
  returned := []
  calls := []
  woken := []
  answering := fun _ => none
  deliveries := []

def current (s : State Task) (task : Task) : Task × ℕ := (task, s.number task)

/-- A sender or caller writes its message into `ipc_message`. -/
def submit (s : State Task) (task : Task) (msg : Message) : State Task :=
  { s with
    ipcMessage := update s.ipcMessage task msg
    number := update s.number task (s.number task + 1) }

def wakeReceiver (s : State Task) (receiver : Task) : State Task :=
  match s.pc receiver with
  | .recvParked op => { s with pc := update s.pc receiver (.recvWoken op) }
  | _ => s

def wakeCaller (s : State Task) (caller : Task) (msg : Message) : State Task :=
  { s with
    ipcMessage := update s.ipcMessage caller msg
    pc := update s.pc caller .idle
    woken := s.woken ++ [s.current caller] }

/-- A message is passed to a waiting receiver through `pending_msg`. -/
def handOff (s : State Task) (receiver : Task) (rest : List Task) (sent : Sent Task) :
    State Task :=
  { s with recvQueue := rest, pendingMsg := sent, handed := s.handed ++ [sent] }.wakeReceiver
    receiver

def send (s : State Task) (task : Task) (msg : Message) (caps : Caps) : State Task :=
  let s := s.submit task msg
  match s.recvQueue with
  | receiver :: rest =>
    s.handOff receiver rest
      { origin := some (s.current task), isCall := false, msg := { msg with caps } }
  | [] => { s with sendQueue := s.sendQueue ++ [task], pc := update s.pc task .sendParked }

def call (s : State Task) (task : Task) (msg : Message) (caps : Caps) : State Task :=
  let s := s.submit task msg
  match s.recvQueue with
  | receiver :: rest =>
    let s := s.handOff receiver rest
      { origin := some (s.current task), isCall := true, msg := { msg with caps } }
    { s with
      pendingSender := some task
      calls := s.calls ++ [s.current task]
      pc := update s.pc task .callParked }
  | [] =>
    { s with
      callQueue := s.callQueue ++ [task]
      calls := s.calls ++ [s.current task]
      pc := update s.pc task .callParked }

/-- A receive operation returns; `recvCall` returns to its handler. -/
def finish (s : State Task) (task : Task) (op : RecvOp) (sent : Sent Task)
    (sender : Option Task) : State Task :=
  { s with
    returned := s.returned ++ [sent]
    answering := update s.answering task (op.answering sent (s.answering task))
    pc := update s.pc task (op.after sent sender) }

/-- The part of `recv`, `replyRecv` and `recvCall` up to the return or to parking. -/
def receive (s : State Task) (task : Task) (op : RecvOp) (caps : Caps) : State Task :=
  match s.callQueue, s.sendQueue with
  | caller :: rest, _ =>
    let sent : Sent Task :=
      { origin := some (s.current caller), isCall := true,
        msg := { s.ipcMessage caller with caps } }
    let s := { s with callQueue := rest, handed := s.handed ++ [sent] }
    match op with
    | .recvCall => s.finish task op sent (some caller)
    | .recv | .replyRecv =>
      { s with pendingMsg := sent, pendingSender := some caller }.finish task op sent none
  | [], sender :: rest =>
    let sent : Sent Task :=
      { origin := some (s.current sender), isCall := false,
        msg := { s.ipcMessage sender with caps } }
    { s with
      sendQueue := rest
      handed := s.handed ++ [sent]
      pc := update s.pc sender .idle }.finish task op sent none
  | [], [] => { s with recvQueue := s.recvQueue ++ [task], pc := update s.pc task (.recvParked op) }

/-- The empty reply with which `recv` ends the call of a pending sender. -/
def dismiss (s : State Task) : State Task :=
  match s.pendingSender with
  | some sender => { s with pendingSender := none }.wakeCaller sender {}
  | none => s

/-- The section of a woken receiver that has taken the lock again. -/
def relock (s : State Task) (task : Task) : RecvOp → State Task
  | .recv => s.dismiss.finish task .recv s.pendingMsg none
  | .replyRecv => s.finish task .replyRecv s.pendingMsg none
  | .recvCall =>
    { s with pendingSender := none }.finish task .recvCall s.pendingMsg s.pendingSender

/-- `reply`, and the first part of `replyRecv`. -/
def answer (s : State Task) (task : Task) (msg : Message) (caps : Caps) : State Task :=
  match s.pendingSender with
  | some sender =>
    { s with
      pendingSender := none
      answering := update s.answering task none
      deliveries := s.deliveries ++ [Delivery.mk (s.answering task) (some (s.current sender))]
      }.wakeCaller sender { msg with caps }
  | none =>
    { s with deliveries := s.deliveries ++ [Delivery.mk (s.answering task) none] }

/-- The `recv_call` handler from the copy into user memory on. -/
def handle (s : State Task) (task : Task) (request : Sent Task) (sender : Option Task)
    (outcome : HandlerOutcome) : State Task :=
  let s := { s with pc := update s.pc task .idle }
  match outcome, sender with
  | .writeUserFails, _ | _, none => s
  | .createFails, some caller | .tableFull, some caller => s.wakeCaller caller {}
  | .inserted, some caller => { s with replies := s.replies ++ [{ sender := some caller, request }] }

/-- The swap of `Reply.send` and of the destructor: the caller is taken out of the object. -/
def swap (s : State Task) (task : Task) (index : ℕ) (msg : Message) (issued : Bool) :
    State Task :=
  match s.replies[index]? with
  | some { sender := some caller, request } =>
    { s with
      replies := s.replies.set index { sender := none, request }
      pc := update s.pc task (.replying caller msg (if issued then some request else none)) }
  | _ => s

def deliver (s : State Task) (task caller : Task) (msg : Message) (issued : Option (Sent Task)) :
    State Task :=
  let s := { s with
    pc := update s.pc task .idle
    deliveries := s.deliveries ++ issued.toList.map fun request =>
      Delivery.mk (callOf request) (some (s.current caller)) }
  s.wakeCaller caller msg

def next (s : State Task) : Task × Action → Option (State Task)
  | (task, action) =>
    match s.pc task, action with
    | .idle, .send msg caps => some (s.send task msg caps)
    | .idle, .call msg caps => some (s.call task msg caps)
    | .idle, .recv caps => some (s.receive task .recv caps)
    | .idle, .recvCall caps => some (s.receive task .recvCall caps)
    | .idle, .reply msg caps => some (s.answer task msg caps)
    | .idle, .replyRecv msg replyCaps caps =>
      some ((s.answer task msg replyCaps).receive task .replyRecv caps)
    | .recvWoken op, .relock => some (s.relock task op)
    | .handling request sender, .handle outcome => some (s.handle task request sender outcome)
    | .idle, .replySend index msg caps => some (s.swap task index { msg with caps } true)
    | .idle, .replyDestroy index => some (s.swap task index {} false)
    | .replying caller msg issued, .deliver => some (s.deliver task caller msg issued)
    | _, _ => none

end State

def system (Task : Type*) [DecidableEq Task] : Transition.System (State Task) (Task × Action) :=
  .ofNext (· = State.init) State.next

end Innigkeit.Capabilities.Endpoint
