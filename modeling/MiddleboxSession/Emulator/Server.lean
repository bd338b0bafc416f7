/-
  MiddleboxSession/Emulator/Server.lean
  =====================================
  **serverUDP.c: the main loop and its workers, interleaved.**

  The emulator's agent keys its flow table by socket addresses: its own and the
  sender's.  An accepted SYN gets a worker.  At the last hop the worker repeats
  the SYN-ACK; at the other hops it sends the SYN on from a socket of its own,
  waits for one datagram there and repeats that.  Both loops look at the record
  of the sender every 3 ms; once it is acked, `sendForward` acknowledges to the
  next hop with the sequence number of the datagram it repeats.

  There is no mutex.  A step is one iteration of the main loop, which is the
  only writer of the table, or one system call or one look at the table of a
  worker.  `Server.step` is the code, `Server.Step` its inversion.
-/
import MiddleboxSession.FlowTable
import MiddleboxSession.Emulator.Wire

namespace MiddleboxSession.Emulator

open CBuffer

/-! ### The gate -/

/-- The key of a sender's record: `servaddr` has the address `INADDR_ANY`. -/
def peerKey (self src : SockAddr) : FlowKey := ⟨0, src.addr, self.port, src.port⟩

theorem peerKey_injective (self : SockAddr) {a b : SockAddr} (h : peerKey self a = peerKey self b) :
    a = b := by
  injection h with _ haddr _ hport
  cases a
  cases b
  exact congrArg₂ SockAddr.mk haddr hport

/-- What one iteration of the main loop does with a datagram. -/
inductive Branch where
  | outOfDate    -- a SYN that is not newer than the record
  | syn          -- a SYN that is accepted
  | ack          -- an ACK that is accepted
  | nullEntry    -- an ACK without a record
  | outOfOrder   -- an ACK for another sequence number
  | other        -- any other action
deriving DecidableEq, Repr

def dispatch (retv : Option Flow) (mesg : Header) : Branch :=
  if mesg.action = 1 then
    match retv with
    | some r => if r.sequenceNumber.toInt ≥ mesg.sequenceNum.toInt then .outOfDate else .syn
    | none => .syn
  else if mesg.action = 3 then
    match retv with
    | some r => if r.sequenceNumber = mesg.sequenceNum then .ack else .outOfOrder
    | none => .nullEntry
  else .other

theorem dispatch_eq_syn {retv : Option Flow} {h : Header} :
    dispatch retv h = .syn ↔
      h.action = 1 ∧ ∀ r, retv = some r → r.sequenceNumber.toInt < h.sequenceNum.toInt := by
  unfold dispatch
  by_cases h1 : h.action = 1
  · rw [if_pos h1, and_iff_right h1]
    cases retv with
    | none => simp
    | some r =>
      by_cases hge : r.sequenceNumber.toInt ≥ h.sequenceNum.toInt
      · simp [hge]
      · simp only [if_neg hge, Option.some.injEq, true_iff]
        rintro _ rfl
        omega
  · rw [if_neg h1]
    simp only [h1, false_and, iff_false]
    by_cases h3 : h.action = 3
    · rw [if_pos h3]
      cases retv with
      | none => simp
      | some r => dsimp only; split <;> simp
    · rw [if_neg h3]
      simp

theorem dispatch_eq_ack {retv : Option Flow} {h : Header} :
    dispatch retv h = .ack ↔
      h.action = 3 ∧ ∃ r, retv = some r ∧ r.sequenceNumber = h.sequenceNum := by
  unfold dispatch
  by_cases h1 : h.action = 1
  · have h3 : h.action ≠ 3 := by rw [h1]; decide
    rw [if_pos h1]
    simp only [h3, false_and, iff_false]
    cases retv with
    | none => simp
    | some r => dsimp only; split <;> simp
  · rw [if_neg h1]
    by_cases h3 : h.action = 3
    · rw [if_pos h3, and_iff_right h3]
      cases retv with
      | none => simp
      | some r => by_cases heq : r.sequenceNumber = h.sequenceNum <;> simp [heq]
    · rw [if_neg h3]
      exact iff_of_false (by simp) fun h' => h3 h'.1

/-! ### `handleRequest` -/

/-- The global `sequenceNumber`, which is never written. -/
def sequenceNumber : Int := 0

inductive Handled where
  | ignored                                     -- the sequence test of `handleRequest`
  | forward (next : Addr) (mesg : List Byte)    -- `sendForward`, and the SYN it sends
  | back (response : List Byte)                 -- `sendBack`, and the SYN-ACK it repeats
  | undefined                                   -- an access outside a buffer
deriving DecidableEq, Repr

/-- `handleRequest`; the length test compares with a `size_t`. -/
def handleRequest (request : Buf) (n : Int) (hashport : BitVec 32) : Handled :=
  let SeqNum := (Header.read request).sequenceNum
  if SeqNum.toInt ≤ sequenceNumber then .ignored
  else if (BitVec.ofInt 64 n).toNat > sizeofHeader + 8 then
    match forwardMesg request n with
    | some (next, mesg) => .forward next mesg
    | none => .undefined
  else
    match responseMesg request n hashport with
    | some response => .back response
    | none => .undefined

/-- The worker of a hop that is not the last one sends the SYN on, without the
    hop's own address. -/
theorem handleRequest_forward {request : Buf} {k : FlowKey} {seq : BitVec 32} {a b : Addr}
    {hops : List Addr} (hreq : request.Holds 0 (synBytes k seq (a :: b :: hops)))
    (hsize : request.size = 1400) (hfit : 24 + 4 * (hops.length + 2) ≤ 1400)
    (hseq : 0 < seq.toInt) (hashport : BitVec 32) :
    handleRequest request (24 + 4 * (hops.length + 2) : Nat) hashport =
      .forward b (synBytes k seq (b :: hops)) := by
  have hread : Header.read request = Header.mk' 1 seq k := Header.read_of_holds hreq
  have hlong : (BitVec.ofInt 64 ((24 + 4 * (hops.length + 2) : Nat) : Int)).toNat >
      sizeofHeader + 8 := (sizeT_gt_iff (by omega) (by omega)).mpr (Or.inr (by omega))
  unfold handleRequest
  dsimp only
  rw [hread, Header.sequenceNum_mk', if_neg (by rw [sequenceNumber]; omega), if_pos hlong,
    forwardMesg_syn hreq hsize hfit]

theorem handleRequest_back {request : Buf} {k : FlowKey} {seq : BitVec 32} {a : Addr}
    (hreq : request.Holds 0 (synBytes k seq [a])) (hsize : request.size = 1400)
    (hseq : 0 < seq.toInt) (hashport : BitVec 32) :
    handleRequest request 28 hashport = .back (synAckBytes k seq hashport) := by
  have hread : Header.read request = Header.mk' 1 seq k := Header.read_of_holds hreq
  unfold handleRequest
  dsimp only
  rw [hread, Header.sequenceNum_mk', if_neg (by rw [sequenceNumber]; omega),
    if_neg (by decide), responseMesg_syn hreq hsize]

theorem handleRequest_ignored {request : Buf}
    (h : (Header.read request).sequenceNum.toInt ≤ 0) (n : Int) (hashport : BitVec 32) :
    handleRequest request n hashport = .ignored := if_pos h

/-! ### The state of a process -/

/-- The loops of `sendForward` and `sendBack`, with what they repeat. -/
inductive Loop where
  | forward (next : SockAddr) (recv : Datagram)
  | back (response : List Byte)

def Loop.mesg : Loop → Option (List Byte)
  | .forward _ recv => sendto recv.buf recv.n
  | .back response => some response

inductive WorkerPc where
  | start                               -- before `handleRequest`
  | ignored
  | recv (next : SockAddr)              -- `recvfrom(SendSockfd, ..)`
  | send (l : Loop) (count : Nat)       -- the head of a loop, before `count++`
  | poll (l : Loop) (count : Nat)       -- before `findItem`
  | done

/-- A worker: the datagram it was started with, its `SendSockfd` once it has
    sent from it, and where it stands. -/
structure Worker where
  request : Datagram
  sock : Option SockAddr
  pc : WorkerPc

/-- The ACK for the next hop, if the loop is the one of `sendForward`. -/
def Worker.ackPacket (w : Worker) (old : Nat → Byte) : Loop → Option Packet
  | .forward next recv => w.sock.bind fun sock =>
      (ackMesg recv.header.sequenceNum old).map fun mesg => ⟨sock, next, mesg⟩
  | .back _ => none

/-- What the main loop accepts, and how the workers' loops end. -/
inductive Event where
  | syn (d : Datagram)
  | ack (d : Datagram)
  | leaveAcked (request : Datagram)
  | leaveTimeout (request : Datagram)

/-- The process.  `alive` ends with the main loop and with undefined behaviour
    in a worker; the history `log` is never read. -/
structure Server where
  records : FlowTable
  hashport : BitVec 32
  alive : Bool
  workers : List Worker
  log : List Event

def Server.init : Server := ⟨FlowTable.empty, 1025, true, [], []⟩

/-! ### Steps -/

/-- The choices of the environment.  `old` is what `AckMesg` holds before it is
    filled in. -/
inductive Act where
  | mainRecv (d : Datagram)
  | mainExit                                      -- more than 600 s since the last SYN
  | workerStart (i : Nat) (sock : SockAddr)
  | workerRecv (i : Nat) (d : Datagram)
  | workerStep (i : Nat) (old : Nat → Byte)

structure Effect where
  worker : Worker
  hashport : BitVec 32
  events : List Event
  packets : List Packet

def Server.apply (a : Server) (i : Nat) (e : Effect) : Server :=
  { a with workers := a.workers.set i e.worker, hashport := e.hashport, log := e.events ++ a.log }

section Steps

variable (self : SockAddr) (destPort : BitVec 16)

/-- One iteration of the main loop. -/
def Server.mainRecv (a : Server) (d : Datagram) : Server :=
  let k := peerKey self d.src
  match dispatch (findItem a.records k) d.header with
  | .syn => { a with
      records := addItem a.records k d.header.sequenceNum
      workers := a.workers ++ [{ request := d, sock := none, pc := .start }]
      log := .syn d :: a.log }
  | .ack => { a with records := setAcked a.records k, log := .ack d :: a.log }
  | .outOfDate | .nullEntry | .outOfOrder | .other => a

/-- `retv != NULL && retv->acked == 1` for the sender of a request. -/
def Server.acked (a : Server) (request : Datagram) : Bool :=
  match findItem a.records (peerKey self request.src) with
  | some r => r.acked = 1
  | none => false

/-- The start of a worker, up to its `recvfrom` or its loop. -/
def Server.workerStart (a : Server) (i : Nat) (w : Worker) (sock : SockAddr) :
    Option (Server × List Packet) :=
  match w.pc with
  | .start =>
    match handleRequest w.request.buf w.request.n a.hashport with
    | .ignored => some (a.apply i ⟨{ w with pc := .ignored }, a.hashport, [], []⟩, [])
    | .forward next mesg =>
      some (a.apply i ⟨{ w with sock := some sock, pc := .recv ⟨next, destPort⟩ }, a.hashport,
        [], []⟩, [⟨sock, ⟨next, destPort⟩, mesg⟩])
    | .back response =>
      some (a.apply i ⟨{ w with pc := .send (.back response) 0 }, a.hashport + 1, [], []⟩, [])
    | .undefined => some ({ a with alive := false }, [])
  | _ => none

/-- The loops of `sendForward` and `sendBack`. -/
def Server.workerStep (a : Server) (w : Worker) (old : Nat → Byte) : Option Effect :=
  match w.pc with
  | .start | .ignored | .recv _ | .done => none
  | .send l count =>
    let sent := if (count + 1) % 40 = 1 then
        l.mesg.map fun mesg => ⟨self, w.request.src, mesg⟩
      else none
    some ⟨{ w with pc := .poll l (count + 1) }, a.hashport, [], sent.toList⟩
  | .poll l count =>
    if a.acked self w.request then
      some ⟨{ w with pc := .done }, a.hashport, [.leaveAcked w.request],
        (w.ackPacket old l).toList⟩
    else if count ≥ 1000 then
      some ⟨{ w with pc := .done }, a.hashport, [.leaveTimeout w.request], []⟩
    else some ⟨{ w with pc := .send l count }, a.hashport, [], []⟩

/-- One step of the process, and the packets it sends. -/
def Server.step (a : Server) (act : Act) : Option (Server × List Packet) :=
  if a.alive then
    match act with
    | .mainRecv d => some (a.mainRecv self d, [])
    | .mainExit => some ({ a with alive := false }, [])
    | .workerStart i sock => a.workers[i]?.bind fun w => a.workerStart destPort i w sock
    | .workerRecv i d => a.workers[i]?.bind fun w =>
        match w.pc with
        | .recv next =>
          some (a.apply i ⟨{ w with pc := .send (.forward next d) 0 }, a.hashport, [], []⟩, [])
        | _ => none
    | .workerStep i old => a.workers[i]?.bind fun w =>
        (a.workerStep self w old).map fun e => (a.apply i e, e.packets)
  else none

end Steps

/-! ### What a step can do -/

section Moves

variable (self : SockAddr) (destPort : BitVec 16)

inductive WorkerMove (a : Server) (i : Nat) (w : Worker) : Act → Effect → Prop
  | ignore (sock : SockAddr) (hpc : w.pc = .start)
      (h : handleRequest w.request.buf w.request.n a.hashport = .ignored) :
      WorkerMove a i w (.workerStart i sock) ⟨{ w with pc := .ignored }, a.hashport, [], []⟩
  | forward (sock : SockAddr) (next : Addr) (mesg : List Byte) (hpc : w.pc = .start)
      (h : handleRequest w.request.buf w.request.n a.hashport = .forward next mesg) :
      WorkerMove a i w (.workerStart i sock)
        ⟨{ w with sock := some sock, pc := .recv ⟨next, destPort⟩ }, a.hashport, [],
          [⟨sock, ⟨next, destPort⟩, mesg⟩]⟩
  | back (sock : SockAddr) (response : List Byte) (hpc : w.pc = .start)
      (h : handleRequest w.request.buf w.request.n a.hashport = .back response) :
      WorkerMove a i w (.workerStart i sock)
        ⟨{ w with pc := .send (.back response) 0 }, a.hashport + 1, [], []⟩
  | recv (next : SockAddr) (d : Datagram) (hpc : w.pc = .recv next) :
      WorkerMove a i w (.workerRecv i d)
        ⟨{ w with pc := .send (.forward next d) 0 }, a.hashport, [], []⟩
  | send (l : Loop) (count : Nat) (old : Nat → Byte) (sent : List Packet)
      (hpc : w.pc = .send l count)
      (hsent : ∀ p ∈ sent, ∃ mesg, l.mesg = some mesg ∧ p = ⟨self, w.request.src, mesg⟩) :
      WorkerMove a i w (.workerStep i old)
        ⟨{ w with pc := .poll l (count + 1) }, a.hashport, [], sent⟩
  | acked (l : Loop) (count : Nat) (old : Nat → Byte) (hpc : w.pc = .poll l count)
      (hacked : a.acked self w.request = true) :
      WorkerMove a i w (.workerStep i old)
        ⟨{ w with pc := .done }, a.hashport, [.leaveAcked w.request],
          (w.ackPacket old l).toList⟩
  | timeout (l : Loop) (count : Nat) (old : Nat → Byte) (hpc : w.pc = .poll l count)
      (hacked : a.acked self w.request = false) (hcount : 1000 ≤ count) :
      WorkerMove a i w (.workerStep i old)
        ⟨{ w with pc := .done }, a.hashport, [.leaveTimeout w.request], []⟩
  | again (l : Loop) (count : Nat) (old : Nat → Byte) (hpc : w.pc = .poll l count)
      (hacked : a.acked self w.request = false) (hcount : count < 1000) :
      WorkerMove a i w (.workerStep i old)
        ⟨{ w with pc := .send l count }, a.hashport, [], []⟩

inductive Server.Step (a : Server) : Act → Server → List Packet → Prop
  | syn (d : Datagram)
      (hd : dispatch (findItem a.records (peerKey self d.src)) d.header = .syn) :
      Step a (.mainRecv d) { a with
        records := addItem a.records (peerKey self d.src) d.header.sequenceNum
        workers := a.workers ++ [{ request := d, sock := none, pc := .start }]
        log := .syn d :: a.log } []
  | ack (d : Datagram)
      (hd : dispatch (findItem a.records (peerKey self d.src)) d.header = .ack) :
      Step a (.mainRecv d)
        { a with records := setAcked a.records (peerKey self d.src), log := .ack d :: a.log } []
  | skip (d : Datagram)
      (hd : dispatch (findItem a.records (peerKey self d.src)) d.header ≠ .syn)
      (hd' : dispatch (findItem a.records (peerKey self d.src)) d.header ≠ .ack) :
      Step a (.mainRecv d) a []
  | exit : Step a .mainExit { a with alive := false } []
  | worker (i : Nat) (w : Worker) (act : Act) (e : Effect) (hw : a.workers[i]? = some w)
      (h : WorkerMove self destPort a i w act e) : Step a act (a.apply i e) e.packets
  | undefined (i : Nat) (w : Worker) (sock : SockAddr) (hw : a.workers[i]? = some w)
      (h : handleRequest w.request.buf w.request.n a.hashport = .undefined) :
      Step a (.workerStart i sock) { a with alive := false } []

variable {self destPort}

theorem WorkerMove.request {a : Server} {i : Nat} {w : Worker} {act : Act} {e : Effect}
    (h : WorkerMove self destPort a i w act e) : e.worker.request = w.request := by
  cases h <;> rfl

/-! One iteration of the main loop, by its branch. -/

theorem Server.mainRecv_of_syn {a : Server} {d : Datagram}
    (hd : dispatch (findItem a.records (peerKey self d.src)) d.header = .syn) :
    a.mainRecv self d = { a with
      records := addItem a.records (peerKey self d.src) d.header.sequenceNum
      workers := a.workers ++ [{ request := d, sock := none, pc := .start }]
      log := .syn d :: a.log } := by
  simp only [mainRecv, hd]

theorem Server.mainRecv_of_ack {a : Server} {d : Datagram}
    (hd : dispatch (findItem a.records (peerKey self d.src)) d.header = .ack) :
    a.mainRecv self d =
      { a with records := setAcked a.records (peerKey self d.src), log := .ack d :: a.log } := by
  simp only [mainRecv, hd]

theorem Server.mainRecv_of_skip {a : Server} {d : Datagram}
    (hsyn : dispatch (findItem a.records (peerKey self d.src)) d.header ≠ .syn)
    (hack : dispatch (findItem a.records (peerKey self d.src)) d.header ≠ .ack) :
    a.mainRecv self d = a := by
  unfold mainRecv
  dsimp only
  split
  · exact absurd ‹_› hsyn
  · exact absurd ‹_› hack
  all_goals rfl

theorem Server.mainRecv_sound (a : Server) (d : Datagram) :
    a.Step self destPort (.mainRecv d) (a.mainRecv self d) [] := by
  by_cases hsyn : dispatch (findItem a.records (peerKey self d.src)) d.header = .syn
  · rw [mainRecv_of_syn hsyn]
    exact .syn d hsyn
  by_cases hack : dispatch (findItem a.records (peerKey self d.src)) d.header = .ack
  · rw [mainRecv_of_ack hack]
    exact .ack d hack
  · rw [mainRecv_of_skip hsyn hack]
    exact .skip d hsyn hack

theorem Server.workerStart_sound {a a' : Server} {i : Nat} {w : Worker} {sock : SockAddr}
    {ps : List Packet} (hw : a.workers[i]? = some w)
    (h : a.workerStart destPort i w sock = some (a', ps)) :
    a.Step self destPort (.workerStart i sock) a' ps := by
  unfold workerStart at h
  split at h
  · rename_i hpc
    split at h <;> cases h
    · rename_i hh
      exact .worker i w _ _ hw (.ignore sock hpc hh)
    · rename_i next mesg hh
      exact .worker i w _ _ hw (.forward sock next mesg hpc hh)
    · rename_i response hh
      exact .worker i w _ _ hw (.back sock response hpc hh)
    · rename_i hh
      exact .undefined i w sock hw hh
  · cases h

theorem Server.workerStep_sound {a : Server} {i : Nat} {w : Worker} {old : Nat → Byte}
    {e : Effect} (h : a.workerStep self w old = some e) :
    WorkerMove self destPort a i w (.workerStep i old) e := by
  unfold workerStep at h
  split at h
  · cases h
  · cases h
  · cases h
  · cases h
  · rename_i l count hpc
    cases h
    apply WorkerMove.send l count old _ hpc
    intro p hp
    split at hp
    · simpa [eq_comm] using hp
    · cases hp
  · rename_i l count hpc
    split at h
    · cases h
      exact .acked l count old hpc ‹_›
    · rename_i hacked
      have hacked := Bool.eq_false_iff.mpr hacked
      split at h <;> cases h
      · exact .timeout l count old hpc hacked ‹_›
      · exact .again l count old hpc hacked (by omega)

/-- **The inversion of `Server.step`.** -/
theorem Server.step_sound {a a' : Server} {act : Act} {ps : List Packet}
    (h : a.step self destPort act = some (a', ps)) :
    a.alive = true ∧ a.Step self destPort act a' ps := by
  unfold step at h
  split at h
  · rename_i halive
    refine ⟨halive, ?_⟩
    cases act with
    | mainRecv d =>
      cases h
      exact mainRecv_sound a d
    | mainExit =>
      cases h
      exact .exit
    | workerStart i sock =>
      obtain ⟨w, hw, h⟩ := Option.bind_eq_some_iff.mp h
      exact workerStart_sound hw h
    | workerRecv i d =>
      obtain ⟨w, hw, h⟩ := Option.bind_eq_some_iff.mp h
      split at h <;> cases h
      rename_i next hpc
      exact .worker i w _ _ hw (.recv next d hpc)
    | workerStep i old =>
      obtain ⟨w, hw, h⟩ := Option.bind_eq_some_iff.mp h
      obtain ⟨e, he, h⟩ := Option.map_eq_some_iff.mp h
      cases h
      exact .worker i w _ e hw (workerStep_sound he)
  · cases h

end Moves

end MiddleboxSession.Emulator
