/-
  MiddleboxSession/Threads.lean
  =============================
  **The threads of MiddleboxAgent, interleaved.**

  One process runs the main loop and one worker per accepted SYN.  They share
  the mutex `lock` and the single flag `update_ack`; every step below is one
  access to these two, one system call, or code that touches neither.  The
  scheduler, the datagrams that arrive and the port numbers that the kernel
  assigns are the labels of a step.

  A step returns the packets it sends.  `Agent.step` is the code;
  `Agent.Step` lists once what a step can do, with one constructor per
  transition, and `Agent.step_sound` connects the two.  Every invariant of the
  later files is a case analysis over `Agent.Step`.

  The model follows the code in what goes wrong: `updateBack` that times out
  clears the flag and unlocks the mutex without holding it (which unlocks it
  for whoever does), and undefined behaviour in a worker ends the process.
  `mainExit` is the `return` of `main`, which ends all threads; of the lines
  between it and the main loop only the calls of `free` are modelled
  (Buffers.lean).
-/
import MiddleboxSession.MainLoop
import MiddleboxSession.Runs

namespace MiddleboxSession

open CBuffer

/-! ### `handleUpdate` -/

/-- The global `sequenceNumber`, which is never written. -/
def sequenceNumber : Int := 0

inductive Handled where
  | ignored                                     -- the sequence test of `handleUpdate`
  | forward (next : Addr) (mesg : List Byte)    -- `updateForward`, and the SYN it sends
  | back (response : List Byte)                 -- `updateBack`, and the SYN-ACK it repeats
  | undefined                                   -- an access outside a buffer
deriving DecidableEq, Repr

/-- `handleUpdate`.  The length test compares with a `size_t`, so a negative
    `n` counts as a very large one. -/
def handleUpdate (request : Buf) (n : Int) : Handled :=
  let SeqNum := (Header.read request).sequenceNum
  if SeqNum.toInt ≤ sequenceNumber then .ignored
  else if (BitVec.ofInt 64 n).toNat > sizeofHeader + 8 then
    match forwardMesg request n with
    | some (next, mesg) => .forward next mesg
    | none => .undefined
  else
    match responseMesg request n with
    | some response => .back response
    | none => .undefined

theorem handleUpdate_eq_ignored {request : Buf} {n : Int} :
    handleUpdate request n = .ignored ↔ (Header.read request).sequenceNum.toInt ≤ 0 := by
  unfold handleUpdate
  dsimp only
  by_cases hseq : (Header.read request).sequenceNum.toInt ≤ sequenceNumber
  · rw [if_pos hseq]
    exact iff_of_true rfl hseq
  · rw [if_neg hseq]
    refine iff_of_false ?_ hseq
    split <;> split <;> simp

theorem handleUpdate_forward {request : Buf} {k : FlowKey} {seq : BitVec 32} {a b : Addr}
    {hops : List Addr} (hreq : request.Holds 0 (synBytes k seq (a :: b :: hops)))
    (hsize : request.size = 1400) (hfit : 24 + 4 * (hops.length + 2) ≤ 1400)
    (hseq : 0 < seq.toInt) :
    handleUpdate request (24 + 4 * (hops.length + 2) : Nat) =
      .forward b (synBytes k seq (b :: hops)) := by
  have hread : Header.read request = Header.mk' 4 seq k := Header.read_of_holds hreq
  have hlong : (BitVec.ofInt 64 ((24 + 4 * (hops.length + 2) : Nat) : Int)).toNat >
      sizeofHeader + 8 := (sizeT_gt_iff (by omega) (by omega)).mpr (Or.inr (by omega))
  unfold handleUpdate
  dsimp only
  rw [hread, Header.sequenceNum_mk', if_neg (by rw [sequenceNumber]; omega), if_pos hlong,
    forwardMesg_syn hreq hsize hfit]

theorem handleUpdate_back {request : Buf} {k : FlowKey} {seq : BitVec 32} {a : Addr}
    (hreq : request.Holds 0 (synBytes k seq [a])) (hsize : request.size = 1400)
    (hseq : 0 < seq.toInt) : handleUpdate request 28 = .back (synAckBytes k seq) := by
  have hread : Header.read request = Header.mk' 4 seq k := Header.read_of_holds hreq
  unfold handleUpdate
  dsimp only
  rw [hread, Header.sequenceNum_mk', if_neg (by rw [sequenceNumber]; omega),
    if_neg (by decide), responseMesg_syn hreq hsize]

section Requests

variable {d : Datagram}

theorem Datagram.holds_tail (d : Datagram) :
    d.buf.Holds 4 (Header.mk' 0 d.header.sequenceNum d.header.key).tailBytes := by
  have htail := Header.holds_tail d.buf
  have hread : Header.read d.buf = d.header := rfl
  rw [hread] at htail
  exact htail

/-- A SYN that names a next hop is forwarded there. -/
theorem handleUpdate_forwards (hseq : 0 < d.header.sequenceNum.toInt) (hlo : 28 < d.n)
    (hhi : d.n ≤ 1400) :
    ∃ rest, handleUpdate d.buf d.n = .forward (d.buf.word 24)
      ((Header.mk' 4 d.header.sequenceNum d.header.key).bytes ++ rest) := by
  have hlong : (BitVec.ofInt 64 d.n).toNat > sizeofHeader + 8 := by
    rw [BitVec.toNat_ofInt, sizeofHeader]
    omega
  refine ⟨(List.range (d.n - 24).toNat).map fun i => d.buf.byte (24 + i), ?_⟩
  have hlen : ((List.range (d.n - 24).toNat).map fun i => d.buf.byte (24 + i)).length =
      (d.n - 24).toNat := by simp
  have hn : d.n = ((24 + (d.n - 24).toNat : Nat) : Int) := by omega
  have hmesg := forwardMesg_eq d.holds_tail (d.buf.holds_bytes 24 (d.n - 24).toNat)
    d.size_buf (by omega) (by omega)
  rw [hlen, ← hn] at hmesg
  have hread : Header.read d.buf = d.header := rfl
  unfold handleUpdate
  dsimp only
  rw [hread, sequenceNumber, if_neg (not_le.mpr hseq), if_pos hlong, hmesg]

/-- The last hop answers. -/
theorem handleUpdate_answers (hseq : 0 < d.header.sequenceNum.toInt) (hn : d.n = 28) :
    handleUpdate d.buf d.n = .back (synAckBytes d.header.key d.header.sequenceNum) := by
  have hmesg := responseMesg_eq d.holds_tail d.size_buf
  have hread : Header.read d.buf = d.header := rfl
  unfold handleUpdate
  dsimp only
  rw [hread, sequenceNumber, if_neg (not_le.mpr hseq), hn, if_neg (by decide), hmesg]

/-- What is forwarded was copied out of the request, with its header fields. -/
theorem handleUpdate_eq_forward {next : Addr} {mesg : List Byte}
    (h : handleUpdate d.buf d.n = .forward next mesg) :
    (∃ rest, mesg = (Header.mk' 4 d.header.sequenceNum d.header.key).bytes ++ rest) ∧
      mesg.length ≤ 1400 := by
  have hread : Header.read d.buf = d.header := rfl
  have hmesg := h
  unfold handleUpdate at hmesg
  dsimp only at hmesg
  split at hmesg
  · cases hmesg
  · rename_i hseq
    rw [hread, sequenceNumber, not_le] at hseq
    split at hmesg
    · rename_i hlong
      split at hmesg
      · rename_i hsome
        cases hmesg
        simp only [forwardMesg, Option.bind_eq_bind, Option.bind_eq_some_iff, sendto] at hsome
        obtain ⟨-, -, b, -, b₁, -, b₂, hcopy, b₃, -, addr, -, bytes, hbytes, heq⟩ := hsome
        cases heq
        obtain ⟨hlo, hhi, -⟩ := Buf.memcpy_eq_some hcopy
        have hlen := (Buf.read_eq_some hbytes).2.2
        simp only [sizeofHeader, Datagram.size_buf] at hlo hhi
        have hgt := (sizeT_gt_iff (by omega) (by omega)).mp hlong
        obtain ⟨rest, hforward⟩ := handleUpdate_forwards hseq (by omega) (by omega)
        rw [hforward, Handled.forward.injEq] at h
        exact ⟨⟨rest, h.2.symm⟩, by omega⟩
      · cases hmesg
    · split at hmesg <;> cases hmesg

end Requests

/-! ### The state of a process -/

inductive Tid where
  | main
  | worker (i : Nat)
deriving DecidableEq, Repr

/-- Where the main thread stands; the four middle ones are in the branch that
    accepts an ACK. -/
inductive MainPc where
  | recv
  | lockAck (k : FlowKey) (s : BitVec 32)
  | setAck (k : FlowKey) (s : BitVec 32)
  | unlockAck (k : FlowKey) (s : BitVec 32)
  | netlinkAck (k : FlowKey) (s : BitVec 32)
deriving DecidableEq, Repr

inductive WorkerPc where
  | start                                          -- before `handleUpdate`
  | ignored
  -- the loop of `updateForward`; `recv` is what `recvsendmsg` holds
  | fwdPoll (next : Addr)
  | fwdLock (next : Addr) (recv : Datagram)
  | fwdTest (next : Addr) (recv : Datagram)
  | fwdUnlock (next : Addr)
  -- the loop of `updateBack`; `count` is its round
  | backLock (response : List Byte) (count : Nat)
  | backTest (response : List Byte) (count : Nat)
  | backUnlock (response : List Byte) (count : Nat)
  | backSend (response : List Byte) (count : Nat)
  -- behind both loops
  | clear                                          -- before `update_ack = 0`
  | finalUnlock
  | done

/-- A worker: the datagram it was started with, the port of its own socket
    (once it has sent from it), and where it stands. -/
structure Worker where
  request : Datagram
  port : Option (BitVec 16)
  pc : WorkerPc

def Worker.key (w : Worker) : FlowKey := w.request.header.key
def Worker.seq (w : Worker) : BitVec 32 := w.request.header.sequenceNum

/-- The process.  `alive` ends with `return` from `main`, the null dereference
    of the main loop, and undefined behaviour in a worker. -/
structure Agent where
  records : FlowTable
  updateAck : Bool
  lock : Option Tid
  alive : Bool
  main : MainPc
  workers : List Worker
  log : List Event

def Agent.init : Agent where
  records := FlowTable.empty
  updateAck := false
  lock := none
  alive := true
  main := .recv
  workers := []
  log := []

/-! ### Steps -/

/-- The choices of the environment. -/
inductive Act where
  | mainRecv (d : Datagram)                    -- one datagram, up to the mutex
  | mainStep                                   -- the ACK branch goes on
  | mainExit                                   -- more than 60 s since the last SYN
  | workerStart (i : Nat) (port : BitVec 16)
  | workerRecv (i : Nat) (d : Datagram)
  | workerStep (i : Nat)

/-- `recvfrom` in the main loop and what follows it.  The SYN branch touches
    nothing that a running thread reads; its worker is the next one. -/
def Agent.mainRecv (a : Agent) (d : Datagram) : Agent :=
  let h := d.header
  match dispatch a.records h with
  | .syn => { a with
      records := addItem a.records h.key h.sequenceNum
      workers := a.workers ++ [{ request := d, port := none, pc := .start }]
      log := synEvents h.key h.sequenceNum ++ a.log }
  | .ack => { a with main := .lockAck h.key h.sequenceNum }
  | .nullDeref => { a with alive := false }
  | .outOfDate | .outOfOrder | .other => a

/-- The ACK branch: lock, `update_ack = 1`, unlock, `send_netlink("ACK")`. -/
def Agent.mainStep (a : Agent) : Option Agent :=
  match a.main with
  | .recv => none
  | .lockAck k s =>
    if a.lock = none then some { a with lock := some .main, main := .setAck k s } else none
  | .setAck k s =>
    some { a with updateAck := true, main := .unlockAck k s, log := .setAck k s :: a.log }
  | .unlockAck k s => some { a with lock := none, main := .netlinkAck k s }
  | .netlinkAck k s =>
    some { a with main := .recv, log := .sendNetlink "ACK" k s :: a.log }

/-- What a step of a worker does to the state that it shares. -/
structure Effect where
  worker : Worker
  updateAck : Bool
  lock : Option Tid
  events : List Event
  packets : List Packet

def Agent.apply (a : Agent) (i : Nat) (e : Effect) : Agent :=
  { a with
    workers := a.workers.set i e.worker
    updateAck := e.updateAck
    lock := e.lock
    log := e.events ++ a.log }

def packetOf (src dst : SockAddr) (payload : Option (List Byte)) : Option Packet :=
  payload.map fun bytes => ⟨src, dst, bytes⟩

section Steps

variable (self : Addr)

/-- The socket of the main loop, which the workers also send from. -/
def mainSock : SockAddr := ⟨self, UDP_PORT⟩

/-- A port that the kernel may give to a worker's socket. -/
def Agent.freshPort (a : Agent) (port : BitVec 16) : Bool :=
  port ≠ UDP_PORT ∧ ∀ w ∈ a.workers, w.port ≠ some port

/-- The start of a worker, up to its loop. -/
def Agent.workerStart (a : Agent) (i : Nat) (w : Worker) (port : BitVec 16) :
    Option (Agent × List Packet) :=
  match w.pc with
  | .start =>
    match handleUpdate w.request.buf w.request.n with
    | .ignored => some (a.apply i ⟨{ w with pc := .ignored }, a.updateAck, a.lock, [], []⟩, [])
    | .forward next mesg =>
      if a.freshPort port then
        some (a.apply i ⟨{ w with port := some port, pc := .fwdPoll next }, a.updateAck, a.lock,
          [.enterLoop w.key w.seq], []⟩, [⟨⟨self, port⟩, mainSock next, mesg⟩])
      else none
    | .back response =>
      some (a.apply i ⟨{ w with pc := .backLock response 1 }, a.updateAck, a.lock,
        [.enterLoop w.key w.seq], []⟩, [])
    | .undefined => some ({ a with alive := false }, [])
  | _ => none

/-- The loops of `updateForward` and `updateBack`, and what follows them. -/
def Agent.workerStep (a : Agent) (i : Nat) (w : Worker) : Option Effect :=
  let goto (pc : WorkerPc) (lock : Option Tid) : Effect :=
    ⟨{ w with pc := pc }, a.updateAck, lock, [], []⟩
  match w.pc with
  | .start | .ignored | .done => none
  | .fwdPoll _ => none
  | .fwdLock next recv =>
    if a.lock = none then some (goto (.fwdTest next recv) (some (.worker i))) else none
  | .fwdTest next recv =>
    if a.updateAck ≠ true then
      let sent := packetOf (mainSock self) w.request.src (sendto recv.buf recv.n)
      some ⟨{ w with pc := .fwdUnlock next }, a.updateAck, a.lock,
        [.testAck w.key w.seq false], sent.toList⟩
    else
      let sent := packetOf ⟨self, w.port.getD 0⟩ (mainSock next) (ackMesg recv.header.sequenceNum)
      some ⟨{ w with pc := .clear }, a.updateAck, a.lock,
        [.leaveAcked w.key w.seq sent, .testAck w.key w.seq true], sent.toList⟩
  | .fwdUnlock next => some (goto (.fwdPoll next) none)
  | .backLock response count =>
    if a.lock = none then some (goto (.backTest response count) (some (.worker i))) else none
  | .backTest response count =>
    if a.updateAck = true then
      some ⟨{ w with pc := .clear }, a.updateAck, a.lock,
        [.leaveAcked w.key w.seq none, .testAck w.key w.seq true], []⟩
    else
      some ⟨{ w with pc := .backUnlock response count }, a.updateAck, a.lock,
        [.testAck w.key w.seq false], []⟩
  | .backUnlock response count => some (goto (.backSend response count) none)
  | .backSend response count =>
    let sent : List Packet := [⟨mainSock self, w.request.src, response⟩]
    if count ≥ 1000 then
      some ⟨{ w with pc := .clear }, a.updateAck, a.lock, [.leaveTimeout w.key w.seq], sent⟩
    else
      some ⟨{ w with pc := .backLock response (count + 1) }, a.updateAck, a.lock, [], sent⟩
  | .clear => some ⟨{ w with pc := .finalUnlock }, false, a.lock, [], []⟩
  | .finalUnlock => some (goto .done none)

/-- One step of the process, and the packets it sends. -/
def Agent.step (a : Agent) (act : Act) : Option (Agent × List Packet) :=
  if a.alive then
    match act with
    | .mainRecv d => if a.main = .recv then some (a.mainRecv d, []) else none
    | .mainStep => a.mainStep.map fun a' => (a', [])
    | .mainExit => if a.main = .recv then some ({ a with alive := false }, []) else none
    | .workerStart i port => a.workers[i]?.bind fun w => a.workerStart self i w port
    | .workerRecv i d => a.workers[i]?.bind fun w =>
        match w.pc with
        | .fwdPoll next => some (a.apply i
            ⟨{ w with pc := .fwdLock next d }, a.updateAck, a.lock, [], []⟩, [])
        | _ => none
    | .workerStep i => a.workers[i]?.bind fun w =>
        (a.workerStep self i w).map fun e => (a.apply i e, e.packets)
  else none

/-! ### What a step can do -/

inductive WorkerMove (a : Agent) (i : Nat) (w : Worker) : Act → Effect → Prop
  | ignore (port : BitVec 16) (hpc : w.pc = .start)
      (h : handleUpdate w.request.buf w.request.n = .ignored) :
      WorkerMove a i w (.workerStart i port)
        ⟨{ w with pc := .ignored }, a.updateAck, a.lock, [], []⟩
  | forward (port : BitVec 16) (next : Addr) (mesg : List Byte) (hpc : w.pc = .start)
      (h : handleUpdate w.request.buf w.request.n = .forward next mesg)
      (hport : a.freshPort port) :
      WorkerMove a i w (.workerStart i port)
        ⟨{ w with port := some port, pc := .fwdPoll next }, a.updateAck, a.lock,
          [.enterLoop w.key w.seq], [⟨⟨self, port⟩, mainSock next, mesg⟩]⟩
  | back (port : BitVec 16) (response : List Byte) (hpc : w.pc = .start)
      (h : handleUpdate w.request.buf w.request.n = .back response) :
      WorkerMove a i w (.workerStart i port)
        ⟨{ w with pc := .backLock response 1 }, a.updateAck, a.lock,
          [.enterLoop w.key w.seq], []⟩
  | recv (next : Addr) (d : Datagram) (hpc : w.pc = .fwdPoll next) :
      WorkerMove a i w (.workerRecv i d)
        ⟨{ w with pc := .fwdLock next d }, a.updateAck, a.lock, [], []⟩
  | fwdLock (next : Addr) (recv : Datagram) (hpc : w.pc = .fwdLock next recv)
      (hlock : a.lock = none) :
      WorkerMove a i w (.workerStep i)
        ⟨{ w with pc := .fwdTest next recv }, a.updateAck, some (.worker i), [], []⟩
  | relay (next : Addr) (recv : Datagram) (hpc : w.pc = .fwdTest next recv)
      (hflag : a.updateAck = false) :
      WorkerMove a i w (.workerStep i)
        ⟨{ w with pc := .fwdUnlock next }, a.updateAck, a.lock, [.testAck w.key w.seq false],
          (packetOf (mainSock self) w.request.src (sendto recv.buf recv.n)).toList⟩
  | fwdAcked (next : Addr) (recv : Datagram) (sent : Packet) (hpc : w.pc = .fwdTest next recv)
      (hflag : a.updateAck = true)
      (hsent : sent =
        ⟨⟨self, w.port.getD 0⟩, mainSock next, ackBytes recv.header.sequenceNum⟩) :
      WorkerMove a i w (.workerStep i)
        ⟨{ w with pc := .clear }, a.updateAck, a.lock,
          [.leaveAcked w.key w.seq (some sent), .testAck w.key w.seq true], [sent]⟩
  | fwdUnlock (next : Addr) (hpc : w.pc = .fwdUnlock next) :
      WorkerMove a i w (.workerStep i)
        ⟨{ w with pc := .fwdPoll next }, a.updateAck, none, [], []⟩
  | backLock (response : List Byte) (count : Nat) (hpc : w.pc = .backLock response count)
      (hlock : a.lock = none) :
      WorkerMove a i w (.workerStep i)
        ⟨{ w with pc := .backTest response count }, a.updateAck, some (.worker i), [], []⟩
  | backTest (response : List Byte) (count : Nat) (hpc : w.pc = .backTest response count)
      (hflag : a.updateAck = false) :
      WorkerMove a i w (.workerStep i)
        ⟨{ w with pc := .backUnlock response count }, a.updateAck, a.lock,
          [.testAck w.key w.seq false], []⟩
  | backAcked (response : List Byte) (count : Nat) (hpc : w.pc = .backTest response count)
      (hflag : a.updateAck = true) :
      WorkerMove a i w (.workerStep i)
        ⟨{ w with pc := .clear }, a.updateAck, a.lock,
          [.leaveAcked w.key w.seq none, .testAck w.key w.seq true], []⟩
  | backUnlock (response : List Byte) (count : Nat) (hpc : w.pc = .backUnlock response count) :
      WorkerMove a i w (.workerStep i)
        ⟨{ w with pc := .backSend response count }, a.updateAck, none, [], []⟩
  | backSend (response : List Byte) (count : Nat) (hpc : w.pc = .backSend response count)
      (hcount : count < 1000) :
      WorkerMove a i w (.workerStep i)
        ⟨{ w with pc := .backLock response (count + 1) }, a.updateAck, a.lock, [],
          [⟨mainSock self, w.request.src, response⟩]⟩
  | timeout (response : List Byte) (count : Nat) (hpc : w.pc = .backSend response count)
      (hcount : 1000 ≤ count) :
      WorkerMove a i w (.workerStep i)
        ⟨{ w with pc := .clear }, a.updateAck, a.lock, [.leaveTimeout w.key w.seq],
          [⟨mainSock self, w.request.src, response⟩]⟩
  | clear (hpc : w.pc = .clear) :
      WorkerMove a i w (.workerStep i) ⟨{ w with pc := .finalUnlock }, false, a.lock, [], []⟩
  | finalUnlock (hpc : w.pc = .finalUnlock) :
      WorkerMove a i w (.workerStep i) ⟨{ w with pc := .done }, a.updateAck, none, [], []⟩

inductive Agent.Step (a : Agent) : Act → Agent → List Packet → Prop
  | syn (d : Datagram) (hmain : a.main = .recv) (h : dispatch a.records d.header = .syn) :
      Step a (.mainRecv d)
        { a with
          records := addItem a.records d.header.key d.header.sequenceNum
          workers := a.workers ++ [{ request := d, port := none, pc := .start }]
          log := synEvents d.header.key d.header.sequenceNum ++ a.log } []
  | ack (d : Datagram) (hmain : a.main = .recv) (h : dispatch a.records d.header = .ack) :
      Step a (.mainRecv d)
        { a with main := .lockAck d.header.key d.header.sequenceNum } []
  | nullDeref (d : Datagram) (hmain : a.main = .recv)
      (h : dispatch a.records d.header = .nullDeref) :
      Step a (.mainRecv d) { a with alive := false } []
  | skip (d : Datagram) (hmain : a.main = .recv)
      (h : dispatch a.records d.header ∈ [.outOfDate, .outOfOrder, .other]) :
      Step a (.mainRecv d) a []
  | exit (hmain : a.main = .recv) : Step a .mainExit { a with alive := false } []
  | lockAck (k : FlowKey) (s : BitVec 32) (hmain : a.main = .lockAck k s)
      (hlock : a.lock = none) :
      Step a .mainStep { a with lock := some .main, main := .setAck k s } []
  | setAck (k : FlowKey) (s : BitVec 32) (hmain : a.main = .setAck k s) :
      Step a .mainStep
        { a with updateAck := true, main := .unlockAck k s, log := .setAck k s :: a.log } []
  | unlockAck (k : FlowKey) (s : BitVec 32) (hmain : a.main = .unlockAck k s) :
      Step a .mainStep { a with lock := none, main := .netlinkAck k s } []
  | netlinkAck (k : FlowKey) (s : BitVec 32) (hmain : a.main = .netlinkAck k s) :
      Step a .mainStep { a with main := .recv, log := .sendNetlink "ACK" k s :: a.log } []
  | undefined (i : Nat) (w : Worker) (port : BitVec 16) (hw : a.workers[i]? = some w)
      (hpc : w.pc = .start) (h : handleUpdate w.request.buf w.request.n = .undefined) :
      Step a (.workerStart i port) { a with alive := false } []
  | worker (i : Nat) (w : Worker) (act : Act) (e : Effect) (hw : a.workers[i]? = some w)
      (h : WorkerMove self a i w act e) :
      Step a act (a.apply i e) e.packets

theorem Agent.workerStep_sound {a : Agent} {i : Nat} {w : Worker} {e : Effect}
    (h : a.workerStep self i w = some e) : WorkerMove self a i w (.workerStep i) e := by
  unfold Agent.workerStep at h
  dsimp only at h
  split at h
  · cases h
  · cases h
  · cases h
  · cases h
  · rename_i next recv hpc
    split at h <;> cases h
    exact .fwdLock next recv hpc ‹_›
  · rename_i next recv hpc
    split at h <;> cases h
    · exact .relay next recv hpc (Bool.eq_false_iff.mpr ‹_›)
    · simp only [ackMesg_eq, packetOf, Option.map_some, Option.toList_some]
      exact .fwdAcked next recv _ hpc (not_not.mp ‹_›) rfl
  · rename_i next hpc
    cases h
    exact .fwdUnlock next hpc
  · rename_i response count hpc
    split at h <;> cases h
    exact .backLock response count hpc ‹_›
  · rename_i response count hpc
    split at h <;> cases h
    · exact .backAcked response count hpc ‹_›
    · exact .backTest response count hpc (Bool.eq_false_iff.mpr ‹_›)
  · rename_i response count hpc
    cases h
    exact .backUnlock response count hpc
  · rename_i response count hpc
    split at h <;> cases h
    · exact .timeout response count hpc ‹_›
    · exact .backSend response count hpc (not_le.mp ‹_›)
  · rename_i hpc
    cases h
    exact .clear hpc
  · rename_i hpc
    cases h
    exact .finalUnlock hpc

theorem Agent.workerStart_sound {a a' : Agent} {i : Nat} {w : Worker} {port : BitVec 16}
    {ps : List Packet} (hw : a.workers[i]? = some w)
    (h : a.workerStart self i w port = some (a', ps)) :
    Agent.Step self a (.workerStart i port) a' ps := by
  unfold Agent.workerStart at h
  split at h
  · rename_i hpc
    split at h
    · rename_i hh
      cases h
      exact .worker i w _ _ hw (.ignore port hpc hh)
    · rename_i next mesg hh
      split at h <;> cases h
      exact .worker i w _ _ hw (.forward port next mesg hpc hh ‹_›)
    · rename_i response hh
      cases h
      exact .worker i w _ _ hw (.back port response hpc hh)
    · rename_i hh
      cases h
      exact .undefined i w port hw hpc hh
  · cases h

theorem Agent.mainRecv_sound {a : Agent} (d : Datagram) (hmain : a.main = .recv) :
    Agent.Step self a (.mainRecv d) (a.mainRecv d) [] := by
  unfold Agent.mainRecv
  dsimp only
  split
  · exact .syn d hmain ‹_›
  · exact .ack d hmain ‹_›
  · exact .nullDeref d hmain ‹_›
  all_goals
    rename_i hb
    exact .skip d hmain (by simp [hb])

theorem Agent.mainStep_sound {a a' : Agent} (h : a.mainStep = some a') :
    Agent.Step self a .mainStep a' [] := by
  unfold Agent.mainStep at h
  split at h
  · cases h
  · rename_i k s hmain
    split at h <;> cases h
    exact .lockAck k s hmain ‹_›
  · rename_i k s hmain
    cases h
    exact .setAck k s hmain
  · rename_i k s hmain
    cases h
    exact .unlockAck k s hmain
  · rename_i k s hmain
    cases h
    exact .netlinkAck k s hmain

/-- **The inversion of `Agent.step`.**  A step is taken by a live process, and
    is one of the transitions of `Agent.Step`. -/
theorem Agent.step_sound {a a' : Agent} {act : Act} {ps : List Packet}
    (h : a.step self act = some (a', ps)) : a.alive = true ∧ Agent.Step self a act a' ps := by
  unfold Agent.step at h
  split at h
  · refine ⟨‹_›, ?_⟩
    cases act with
    | mainRecv d =>
      dsimp only at h
      split at h <;> cases h
      exact Agent.mainRecv_sound self d ‹_›
    | mainStep =>
      obtain ⟨a'', ha, heq⟩ := Option.map_eq_some_iff.mp h
      cases heq
      exact Agent.mainStep_sound self ha
    | mainExit =>
      dsimp only at h
      split at h <;> cases h
      exact .exit ‹_›
    | workerStart i port =>
      obtain ⟨w, hw, hstart⟩ := Option.bind_eq_some_iff.mp h
      exact Agent.workerStart_sound self hw hstart
    | workerRecv i d =>
      obtain ⟨w, hw, hrecv⟩ := Option.bind_eq_some_iff.mp h
      split at hrecv <;> cases hrecv
      exact .worker i w _ _ hw (.recv _ d ‹_›)
    | workerStep i =>
      obtain ⟨w, hw, hstep⟩ := Option.bind_eq_some_iff.mp h
      obtain ⟨e, he, heq⟩ := Option.map_eq_some_iff.mp hstep
      cases heq
      exact .worker i w _ e hw (Agent.workerStep_sound self he)
  · cases h

/-- One step without its packets, for the properties of a single process. -/
def Agent.next (a : Agent) (act : Act) : Option Agent := (a.step self act).map Prod.fst

theorem Agent.next_sound {a a' : Agent} {act : Act} (h : a.next self act = some a') :
    a.alive = true ∧ ∃ ps, Agent.Step self a act a' ps := by
  obtain ⟨⟨b, ps⟩, hstep, rfl⟩ := Option.map_eq_some_iff.mp h
  obtain ⟨halive, hs⟩ := Agent.step_sound self hstep
  exact ⟨halive, ps, hs⟩

end Steps

/-! ### The main thread is the main loop

The main thread of an interleaved run behaves as `mainLoop` does on the
datagrams it received.  In the middle of an ACK branch it is behind by the
events that are still to come. -/

def Event.ofMain : Event → Bool
  | .sendNetlink .. | .addItem .. | .startWorker .. | .setAck .. => true
  | .enterLoop .. | .testAck .. | .leaveAcked .. | .leaveTimeout .. => false

/-- What the main thread has still to do in its iteration, the latest first. -/
def MainPc.rest : MainPc → List Event
  | .recv => []
  | .lockAck k s | .setAck k s => ackEvents k s
  | .unlockAck k s | .netlinkAck k s => [.sendNetlink "ACK" k s]

def Worker.update (w : Worker) : FlowKey × BitVec 32 := (w.key, w.seq)

/-- An interleaved process and the main loop run to the end of the iteration. -/
structure Simulates (a : Agent) (st : MainState) : Prop where
  records : a.records = st.records
  alive : a.alive = true → st.alive = true
  log : a.main.rest ++ a.log.filter Event.ofMain = st.log
  workers : ∀ k s, (a.workers.map Worker.update).count (k, s) = st.log.count (.startWorker k s)

theorem Simulates.init : Simulates Agent.init MainState.init :=
  ⟨rfl, fun _ => rfl, rfl, fun _ _ => rfl⟩

section Simulation

variable {self : Addr}

theorem WorkerMove.request {a : Agent} {i : Nat} {w : Worker} {act : Act} {e : Effect}
    (h : WorkerMove self a i w act e) : e.worker.request = w.request := by
  cases h <;> rfl

theorem WorkerMove.key {a : Agent} {i : Nat} {w : Worker} {act : Act} {e : Effect}
    (h : WorkerMove self a i w act e) : e.worker.key = w.key := by
  rw [Worker.key, h.request]
  rfl

theorem WorkerMove.seq {a : Agent} {i : Nat} {w : Worker} {act : Act} {e : Effect}
    (h : WorkerMove self a i w act e) : e.worker.seq = w.seq := by
  rw [Worker.seq, h.request]
  rfl

theorem WorkerMove.update {a : Agent} {i : Nat} {w : Worker} {act : Act} {e : Effect}
    (h : WorkerMove self a i w act e) : e.worker.update = w.update := by
  rw [Worker.update, h.key, h.seq]
  rfl

theorem WorkerMove.pc_ne_start {a : Agent} {i : Nat} {w : Worker} {act : Act} {e : Effect}
    (h : WorkerMove self a i w act e) : e.worker.pc ≠ .start := by
  cases h <;> simp

/-- A worker that is going to answer enters its loop. -/
theorem WorkerMove.of_back {a : Agent} {i : Nat} {w : Worker} {act : Act} {e : Effect}
    (h : WorkerMove self a i w act e) (hpc : w.pc = .start) {response : List Byte}
    (hh : handleUpdate w.request.buf w.request.n = .back response) :
    (∃ port, act = .workerStart i port) ∧ e = ⟨{ w with pc := .backLock response 1 }, a.updateAck,
      a.lock, [.enterLoop w.key w.seq], []⟩ := by
  cases h with
  | ignore port _ hh' | forward port _ _ _ hh' =>
    rw [hh] at hh'
    cases hh'
  | back port _ _ hh' =>
    rw [hh, Handled.back.injEq] at hh'
    subst hh'
    exact ⟨⟨port, rfl⟩, rfl⟩
  | _ => simp_all

/-- A worker that is going to forward its SYN does so from a socket of its own. -/
theorem WorkerMove.of_forward {a : Agent} {i : Nat} {w : Worker} {act : Act} {e : Effect}
    (h : WorkerMove self a i w act e) (hpc : w.pc = .start) {next : Addr} {mesg : List Byte}
    (hh : handleUpdate w.request.buf w.request.n = .forward next mesg) :
    ∃ port, act = .workerStart i port ∧ e = ⟨{ w with port := some port, pc := .fwdPoll next },
      a.updateAck, a.lock, [.enterLoop w.key w.seq], [⟨⟨self, port⟩, mainSock next, mesg⟩]⟩ := by
  cases h with
  | ignore port _ hh' | back port _ _ hh' =>
    rw [hh] at hh'
    cases hh'
  | forward port _ _ _ hh' =>
    rw [hh, Handled.forward.injEq] at hh'
    obtain ⟨rfl, rfl⟩ := hh'
    exact ⟨port, rfl, rfl⟩
  | _ => simp_all

theorem WorkerMove.not_ofMain {a : Agent} {i : Nat} {w : Worker} {act : Act} {e : Effect}
    (h : WorkerMove self a i w act e) : e.events.filter Event.ofMain = [] := by
  cases h <;> rfl

theorem Agent.map_update_apply {a : Agent} {i : Nat} {w : Worker} {act : Act} {e : Effect}
    (hw : a.workers[i]? = some w) (h : WorkerMove self a i w act e) :
    (a.apply i e).workers.map Worker.update = a.workers.map Worker.update := by
  obtain ⟨hi, hget⟩ := List.getElem?_eq_some_iff.mp hw
  have hself : a.workers.map Worker.update =
      (a.workers.map Worker.update).set i w.update := by
    rw [← hget, ← List.map_set, List.set_getElem_self]
  rw [Agent.apply, List.map_set, h.update, ← hself]

theorem Simulates.step {a a' : Agent} {act : Act} {ps : List Packet} {st : MainState}
    (hsim : Simulates a st) (halive : a.alive = true) (h : Agent.Step self a act a' ps) :
    ∃ ds, Simulates a' (mainLoop st ds) := by
  have hst : st.alive = true := hsim.alive halive
  have hlog := hsim.log
  cases h with
  | syn d hmain hd =>
    rw [hmain, MainPc.rest, List.nil_append] at hlog
    have hit : mainIteration st d = { st with
        records := addItem a.records d.header.key d.header.sequenceNum
        log := synEvents d.header.key d.header.sequenceNum ++ st.log } := by
      rw [hsim.records] at hd ⊢
      simp [mainIteration, hst, hd]
    refine ⟨[d], ?_⟩
    rw [mainLoop, List.foldl_cons, List.foldl_nil, hit]
    refine ⟨rfl, fun _ => hst, ?_, fun k s => ?_⟩
    · simp only [hmain, MainPc.rest, List.nil_append, List.filter_append, hlog]
      rfl
    · have hcount := hsim.workers k s
      simp only [List.map_append, List.count_append, hcount, synEvents, List.cons_append,
        List.nil_append, List.count_cons, List.map_cons, List.map_nil, List.count_nil]
      simp [Worker.update, Worker.key, Worker.seq]
  | ack d hmain hd =>
    rw [hmain, MainPc.rest, List.nil_append] at hlog
    have hit : mainIteration st d = { st with
        log := ackEvents d.header.key d.header.sequenceNum ++ st.log } := by
      rw [hsim.records] at hd
      simp [mainIteration, hst, hd]
    refine ⟨[d], ?_⟩
    rw [mainLoop, List.foldl_cons, List.foldl_nil, hit]
    refine ⟨hsim.records, fun _ => hst, ?_, fun k s => ?_⟩
    · simp only [MainPc.rest, hlog]
    · rw [hsim.workers k s]
      simp [ackEvents]
  | nullDeref d hmain hd =>
    have hit : mainIteration st d = { st with alive := false } := by
      rw [hsim.records] at hd
      simp [mainIteration, hst, hd]
    refine ⟨[d], ?_⟩
    rw [mainLoop, List.foldl_cons, List.foldl_nil, hit]
    exact ⟨hsim.records, fun h => h, hlog, hsim.workers⟩
  | skip d hmain hd => exact ⟨[], hsim⟩
  | exit hmain => exact ⟨[], hsim.records, fun h => (by cases h), hlog, hsim.workers⟩
  | lockAck k s hmain | setAck k s hmain | unlockAck k s hmain | netlinkAck k s hmain =>
    rw [hmain] at hlog
    exact ⟨[], hsim.records, fun _ => hst, hlog, hsim.workers⟩
  | undefined i w port hw hpc hh =>
    exact ⟨[], hsim.records, fun h => (by cases h), hlog, hsim.workers⟩
  | worker i w _ e hw hm =>
    refine ⟨[], hsim.records, fun _ => hst, ?_, fun k s => ?_⟩
    · simp only [Agent.apply, List.filter_append, hm.not_ofMain, List.nil_append]
      exact hlog
    · rw [Agent.map_update_apply hw hm]
      exact hsim.workers k s

/-- **Every interleaved run is a run of the main loop**, as far as the main
    thread is concerned. -/
theorem Agent.simulates {a : Agent} (h : Runs.Reachable (Agent.next self) Agent.init a) :
    ∃ ds, Simulates a (mainLoop MainState.init ds) := by
  refine h.invariant (P := fun a => ∃ ds, Simulates a (mainLoop MainState.init ds))
    ⟨[], Simulates.init⟩ fun a act a' _ hP hnext => ?_
  obtain ⟨ds, hsim⟩ := hP
  obtain ⟨halive, ps, hstep⟩ := Agent.next_sound self hnext
  obtain ⟨es, hes⟩ := hsim.step halive hstep
  exact ⟨ds ++ es, by rwa [mainLoop_append]⟩

theorem Simulates.nodup {a : Agent} {ds : List Datagram}
    (h : Simulates a (mainLoop MainState.init ds)) : (a.workers.map Worker.update).Nodup := by
  have hG : Gated (mainLoop MainState.init ds) := Gated.init.mainLoop ds
  refine List.nodup_iff_count_le_one.mpr ?_
  rintro ⟨k, s⟩
  rw [h.workers, hG.workers]
  exact hG.once k s

theorem Simulates.addItem_mem {a : Agent} {ds : List Datagram} {k : FlowKey} {s : BitVec 32}
    (h : Simulates a (mainLoop MainState.init ds)) (hs : storedSeq a.records k = some s) :
    .addItem k s ∈ a.log := by
  have hG : Gated (mainLoop MainState.init ds) := Gated.init.mainLoop ds
  rw [h.records] at hs
  have hmem := ((hG.stored k s).mp hs).1
  rw [← h.log] at hmem
  rcases List.mem_append.mp hmem with hrest | hlog
  · cases hmain : a.main <;> simp [hmain, MainPc.rest, ackEvents] at hrest
  · exact (List.mem_filter.mp hlog).1

end Simulation

end MiddleboxSession
