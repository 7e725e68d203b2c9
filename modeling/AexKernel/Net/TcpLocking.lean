import AexKernel.Library.LockProgram
import AexKernel.Net.TcpThreads

/-! # The lock of a TCP socket

The control flow of the operations of `TCPSocket` and of the functions that they call, as far as
`m_lock` is concerned. -/

namespace AexKernel.Net

open Library LockProgram

/-- The functions of `TCPSocket` that its operations call and that take the lock or send. -/
inductive TcpHelper
  | syn | ack | rst | fin | windowUpdate | sendSegment | package | retransmit | packetReceived
  | packetReceivedListen
  deriving DecidableEq, Repr

/-- The operations of `TCPSocket`. -/
inductive TcpOp
  | connect | bind | listen | accept | sendTo | receiveFrom | shutdown | close | tick | packetReceived
  deriving DecidableEq, Repr

namespace TcpLocking

/-- A program of `TCPSocket`. -/
abbrev Program := LockProgram TcpHelper TcpState

/-- The test of `m_block.state` for one of some states. -/
def stateIn (states : List TcpState) : Option (TcpState → Bool) := some fun s => s ∈ states

/-- A wait for an event: the lock is released for the `yield()` behind it. -/
def wait : Program := .block [.release, .acquire]

/-- `reset()` with the lock, then `rst()` without it if the peer has to be told, and `return`. -/
def resetReturn : Program := .block [.release, .when none (.call .rst), .ret]

/-- `syn()` and `fin()`: the segment is queued under the lock and sent without it. -/
def pushSend : Program := .block [.acquire, .release, .call .sendSegment]

@[inherit_doc pushSend]
def syn : Program := pushSend

@[inherit_doc pushSend]
def fin : Program := pushSend

/-- `ack(manual)`, `rst()` and `windowUpdate()`. -/
def sendOnly : Program := .call .sendSegment

@[inherit_doc sendOnly]
def ack : Program := sendOnly

@[inherit_doc sendOnly]
def rst : Program := sendOnly

@[inherit_doc sendOnly]
def windowUpdate : Program := sendOnly

/-- `sendSegment(seg, addr, port)`. -/
def sendSegment : Program := .block
  [ .when none (.when (stateIn [.closed]) (.block [.when none (.call .rst), .ret])),
    -- the packet may be looped back, as may the answers to it
    .loop none (.call .packetReceived),
    .ret ]

/-- `package()`. -/
def package : Program := .block
  [ .acquire,
    .loop none (.block [.release, .call .sendSegment, .acquire]),
    .release,
    .when none (.call .ack) ]

/-- `retransmit()`. -/
def retransmit : Program := .block
  [ .acquire,
    .loop none (.block
      [ .when none .cont,
        .when none resetReturn,
        .release, .call .sendSegment, .acquire ]),
    .release ]

/-- The RST of a segment in `packetReceived`. -/
def receiveRst : Program := .when none (.block [.release, .ret])

/-- The SYN of a segment in `packetReceived`. -/
def receiveSyn : Program :=
  .when none (.when (stateIn [.synSent]) (.block [.release, .call .ack, .acquire]))

/-- The ACK of a segment in `packetReceived`. -/
def receiveAck : Program := .when none (.block
  [ .when (stateIn [.synSent, .synReceived]) (.when none resetReturn),
    .loop none (.block
      [ .when none .cont,
        .when none (.ite (stateIn [.finWait1]) .skip
          (.when (stateIn [.lastAck, .closing]) (.block [.release, .ret]))) ]) ])

/-- The data of a segment in `packetReceived`. -/
def receiveData : Program := .when none (.ite none
  (.when none resetReturn)
  (.when none (.block [.release, .call .ack, .acquire])))

/-- `packetReceived(src, src_port, buffer, len)`. -/
def packetReceived : Program := .block
  [ .when none .ret,
    .when (stateIn [.closed]) .ret,
    .when (stateIn [.listen]) (.block [.call .packetReceivedListen, .ret]),
    .acquire, receiveRst, receiveSyn, receiveAck, receiveData, .release ]

/-- `packetReceivedListen(src, src_port, buffer, len)`. -/
def packetReceivedListen : Program := .block
  [ .acquire,
    .when none (.block [.release, .ret]),
    .when none (.block
      [ .when none (.block [.release, .ret]),
        .release, .call .sendSegment, .acquire ]),
    .when none (.block [.release, .ret]),
    .release ]

def body : TcpHelper → Program
  | .syn => syn
  | .ack => ack
  | .rst => rst
  | .fin => fin
  | .windowUpdate => windowUpdate
  | .sendSegment => sendSegment
  | .package => package
  | .retransmit => retransmit
  | .packetReceived => packetReceived
  | .packetReceivedListen => packetReceivedListen

theorem fit_body (p : TcpHelper) : (body p).Fit := by
  cases p <;> decide

/-- `connect(addr)`. -/
def connect : Program := .block
  [ .when none .ret,
    .acquire,
    .ite (stateIn [.closed]) .skip (.block [.release, .ret]),
    .release, .call .syn, .acquire,
    .loop none wait,
    .ite (stateIn [.established, .finWait1, .finWait2, .closeWait]) .skip resetReturn,
    .release, .ret ]

/-- `bind(addr)`. -/
def bind : Program := .block [.when none .ret, .scope .ret]

/-- `listen(backlog)`. -/
def listen : Program := .scope (.block [.ite (stateIn [.closed]) .skip .ret, .ret])

/-- `accept()`. -/
def accept : Program := .block
  [ .acquire,
    .ite (stateIn [.listen]) .skip (.block [.release, .ret]),
    .loop (some fun s => s ≠ .closed) (.block
      [ wait, .when none .cont, .release, .ret ]),
    .release, .ret ]

/-- `sendTo(buffer, len, flags, dst_addr)`. -/
def sendTo : Program := .block
  [ .when none .ret, .when none .ret, .when none .ret,
    .acquire,
    .ite (stateIn [.established]) .skip (.block [.release, .ret]),
    .loop none (.block
      [ .when none .brk,
        .when none (.block [wait, .cont]) ]),
    .release, .ret ]

/-- `receiveFrom(buffer, len, flags, src_addr)`. -/
def receiveFrom : Program := .block
  [ .when none .ret, .when none .ret,
    .acquire,
    .ite (stateIn [.established]) .skip (.block [.release, .ret]),
    .loop none (.block
      [ .when none (.block [.when none .brk, wait, .cont]),
        .when none (.block [.release, .call .windowUpdate, .acquire]) ]),
    .release, .ret ]

/-- `shutdown(how)`. -/
def shutdown : Program := .block
  [ .when none .ret,
    .acquire,
    .when (stateIn [.listen, .synSent, .synReceived, .closed]) (.block [.release, .ret]),
    .when none (.block
      [ .loop none wait,
        .release, .call .fin, .acquire,
        .loop (some fun s => s ≠ .closed) wait ]),
    .release, .ret ]

/-- `close()`, with what it does in CLOSE_WAIT. -/
def closeWith (inCloseWait : Program) : Program := .seq .acquire (.seq
  (.ite (stateIn [.closeWait]) inCloseWait (.ite (stateIn [.lastAck, .closed]) .skip
    (.block [.release, .when none (.call .rst), .acquire])))
  (.block [.loop (some fun s => s ≠ .closed) wait, .release, .ret]))

/-- `close()`. -/
def close : Program := closeWith (.call .fin)

/-- `tick()`. -/
def tick : Program := .block
  [ .when (stateIn [.closed]) .ret, .call .package, .call .retransmit ]

end TcpLocking

namespace TcpOp

def program : TcpOp → TcpLocking.Program
  | .connect => TcpLocking.connect
  | .bind => TcpLocking.bind
  | .listen => TcpLocking.listen
  | .accept => TcpLocking.accept
  | .sendTo => TcpLocking.sendTo
  | .receiveFrom => TcpLocking.receiveFrom
  | .shutdown => TcpLocking.shutdown
  | .close => TcpLocking.close
  | .tick => TcpLocking.tick
  | .packetReceived => TcpLocking.packetReceived

/-- Every path of an operation is disciplined whose first test of the state finds the given one. -/
def DisciplinedIn (op : TcpOp) (state : TcpState) : Prop :=
  ∀ t o, Exec TcpLocking.body op.program t o → (∀ s ∈ firstRead t, s = state) → Disciplined t o

/-! ## Paths -/

variable {op : TcpOp}

theorem fit_program (hop : op ≠ .close) : op.program.Fit := by
  cases op with
  | close => exact absurd rfl hop
  | connect | bind | listen | accept | sendTo | receiveFrom | shutdown | tick | packetReceived => decide

theorem exec_closeWith {c c' : TcpLocking.Program} {t : List (LockEvent TcpState)} {o : Option Exit}
    (run : Exec TcpLocking.body (TcpLocking.closeWith c) t o)
    (hf : ∀ s ∈ firstRead t, s ≠ .closeWait) :
    Exec TcpLocking.body (TcpLocking.closeWith c') t o := by
  have ha {t : List (LockEvent TcpState)} (h : ∀ s ∈ firstRead t, s ≠ TcpState.closeWait) :
      ∀ s ∈ firstRead t, decide (s ∈ [TcpState.closeWait]) = false :=
    fun s hs => decide_eq_false fun hm => h s hs (List.mem_singleton.mp hm)
  cases run with
  | stop => exact .stop _
  | seqLeft first left =>
    cases first with
    | stop => exact .stop _
    | acquire => exact absurd rfl left
  | seq first second =>
    cases first
    refine .seq .acquire ?_
    cases second with
    | stop => exact .stop _
    | seqLeft branch left => exact .seqLeft (branch.ite_of_fails (ha hf)) left
    | @seq _ _ t u _ branch rest =>
      refine .seq (branch.ite_of_fails (ha fun s hs => ?_)) rest
      exact hf s (firstRead_append hs u)

theorem exec_close : Exec TcpLocking.body TcpLocking.close
    [.acquire, .read .closeWait, .acquire] none := by
  have hf : Exec TcpLocking.body TcpLocking.fin [.acquire] none := .seq .acquire (.stop _)
  refine .seq .acquire (.seqLeft (.thenBranch (fun p hp => ?_) (.callLeft hf)) nofun)
  cases hp
  rfl

theorem disciplinedIn {state : TcpState} (h : ¬ (op = .close ∧ state = .closeWait)) :
    op.DisciplinedIn state := by
  intro t o run hi
  by_cases hop : op = .close
  · have ht : state ≠ .closeWait := fun ht => h ⟨hop, ht⟩
    have hf : (TcpLocking.closeWith .skip).Fit := by decide
    rw [hop] at run
    exact hf.disciplined TcpLocking.fit_body (exec_closeWith run fun s hs => hi s hs ▸ ht)
  · exact (fit_program hop).disciplined TcpLocking.fit_body run

theorem not_disciplinedIn_close : ¬ TcpOp.close.DisciplinedIn .closeWait := by
  intro h
  obtain ⟨held, hf, -⟩ := h _ _ exec_close fun s hs => (Option.some.inj hs).symm
  cases hf

/-- **The lock discipline.** Every path of every operation is disciplined, whatever states it finds,
unless it is a path of `close()` that finds CLOSE_WAIT. -/
theorem disciplinedIn_iff (op : TcpOp) (state : TcpState) :
    op.DisciplinedIn state ↔ ¬ (op = .close ∧ state = .closeWait) := by
  refine ⟨?_, disciplinedIn⟩
  rintro h ⟨rfl, rfl⟩
  exact not_disciplinedIn_close h

theorem not_disciplined_closeWait : ∃ t, Exec TcpLocking.body TcpOp.close.program t none ∧
    firstRead t = some .closeWait ∧ ¬ Disciplined t none :=
  ⟨_, exec_close, rfl, fun ⟨_, hfo, _⟩ => nomatch hfo⟩

end TcpOp

theorem TcpSocket.close_eq_divergence_iff (s : TcpSocket) :
    s.close = .error .divergence ↔ ¬ TcpOp.close.DisciplinedIn s.block.state := by
  rw [TcpSocket.close]
  by_cases hs : s.block.state = .closeWait
  · rw [if_pos hs, hs]
    exact iff_of_true rfl TcpOp.not_disciplinedIn_close
  rw [if_neg hs]
  refine iff_of_false ?_ (not_not.mpr (TcpOp.disciplinedIn fun h => hs h.2))
  split_ifs <;> nofun

end AexKernel.Net
