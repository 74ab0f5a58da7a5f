import LinuxServer.Protobuf.RoundTrip
import LinuxServer.Reactor.TcpWriteComplete

/-! Two programs that exchange messages over a connection, each with the codec on its end:
threads that send, the two loops, and the bytes on their way in both directions. -/
namespace LinuxServer.Protobuf.Exchange
open LinuxServer.Lib LinuxServer.Reactor
open TcpConnection (Call ofThread)
variable {Msg Descriptor : Type} (rt : Runtime Msg Descriptor)

inductive End where
  | client
  | server
  deriving DecidableEq

def End.other : End → End
  | .client => .server
  | .server => .client

@[simp] theorem End.other_other (x : End) : x.other.other = x := by cases x <;> rfl
@[simp] theorem End.other_ne (x : End) : x.other ≠ x := by cases x <;> simp [End.other]

/-- A message that a program may send: initialized, of a registered type with a name,
within the receiver's limit, and treated by the runtime as documented. -/
structure Sendable (m : Msg) : Prop where
  initialized : rt.isInitialized m = true
  registered : Registered rt m
  faithful : Faithful rt m
  named : rt.typeName m ≠ []
  fits : ((layout rt (rt.typeName m) (rt.serialize m)).length : Int) ≤ maxMessageLength

/-- What a program brings to its end: the loop's thread, which callbacks it sets beside the
codec, and the codec's error callback. -/
structure Program where
  threadId : Thread
  connection : Bool
  writeComplete : Bool
  errorCallBack : Buffer → ErrorCode → Buffer

/-- OnMessage as the message callback of a connection. -/
def Program.onMessage (p : Program) (b : Buffer) : Buffer :=
  match Protobuf.onMessage rt p.errorCallBack b with
  | .ok (b',_) => b'
  | .error _ => b

def Program.callBacks (p : Program) : TcpConnection.CallBacks := ⟨p.connection,some (p.onMessage rt),p.writeComplete⟩

/-- The messages of the Sends that found Connected and the codec's callbacks are recorded for
the statements only, as is how much of the other end's stream was read. -/
structure Peer (Msg : Type) where
  connection : TcpConnection.State
  sent : List Msg
  taken : Nat
  delivered : List (Event Msg)

inductive Label (rt : Runtime Msg Descriptor) where
  /-- ProtobufCodec::Send. The last argument is what ::write answers if it is reached. -/
  | send (t : Thread) (m : {m // Sendable rt m}) (answer : Except Int Nat)
  /-- The socket is readable, with so many bytes at once, or at the end of the stream. -/
  | receive (n : Nat)
  | receiveError (errno : Int)
  /-- Any other step of the connection. -/
  | proceed (a : TcpConnection.Label)

/-- Nothing can be written after SHUT_WR. -/
def Possible (c : TcpConnection.State) (answer : Except Int Nat) : Prop := c.shutDown = true → answer.isOk = false

instance (c : TcpConnection.State) (answer : Except Int Nat) : Decidable (Possible c answer) :=
  inferInstanceAs (Decidable (_ → _))

/-- The user's Sends and the read events have labels of their own. -/
def Allowed (c : TcpConnection.State) : TcpConnection.Label → Prop
  | .send .. | .handleRead _ => False
  | .handleWrite answer | .runFunctor answer => Possible c answer
  | _ => True

instance (c : TcpConnection.State) : ∀ a, Decidable (Allowed c a)
  | .send .. | .handleRead _ => inferInstanceAs (Decidable False)
  | .handleWrite answer | .runFunctor answer => inferInstanceAs (Decidable (Possible c answer))
  | .shutDown _ | .proceed _ | .connectedEstablished | .handleClose | .queueConnectedDestroyed | .swapFunctors =>
    inferInstanceAs (Decidable True)

/-- The other end has no more to say. -/
def Ended (c : TcpConnection.State) : Prop := c.shutDown = true ∨ c.connectState = .disconnected

instance (c : TcpConnection.State) : Decidable (Ended c) := inferInstanceAs (Decidable (_ ∨ _))

/-- One read of what has arrived, and what the codec makes of it. -/
def Peer.handleRead (p : Program) (peer : Peer Msg) (data : List UInt8) : Except Halt (Peer Msg) := do
  let connection ← TcpConnection.step p.threadId (p.callBacks rt) peer.connection (.handleRead (.ok data))
  let (b,_,_) ← peer.connection.inputBuffer.readFd 0 (.ok data)
  let (_,calls) ← Protobuf.onMessage rt p.errorCallBack b
  .ok { peer with
    connection := connection
    taken := peer.taken + data.length
    delivered := if data = [] then peer.delivered else peer.delivered ++ calls }

variable (p : End → Program)

def step (s : End → Peer Msg) (x : End) : Label rt → Except Halt (End → Peer Msg)
  | .send t m answer => do
    ensure .notEnabled (Possible (s x).connection answer)
    let buf ← fillEmptyBuffer rt (some .new) m.val
    let connection ← TcpConnection.step (p x).threadId ((p x).callBacks rt) (s x).connection (.send t (.buffer (some buf)) answer)
    .ok (Function.update s x { s x with
      connection := connection
      sent := if (s x).connection.connectState = .connected then (s x).sent ++ [m.val] else (s x).sent })
  | .receive n => do
    let arrived := (s x.other).connection.wire.drop (s x).taken
    ensure .notEnabled (n ≤ arrived.length ∧ (n = 0 → arrived = [] ∧ Ended (s x.other).connection))
    ensure .notEnabled (n ≤ (s x).connection.inputBuffer.writeableBytes + Buffer.extraBuf)
    let peer ← (s x).handleRead rt (p x) (arrived.take n)
    .ok (Function.update s x peer)
  | .receiveError errno => do
    let connection ← TcpConnection.step (p x).threadId ((p x).callBacks rt) (s x).connection (.handleRead (.error errno))
    .ok (Function.update s x { s x with connection := connection })
  | .proceed a => do
    ensure .notEnabled (Allowed (s x).connection a)
    let connection ← TcpConnection.step (p x).threadId ((p x).callBacks rt) (s x).connection a
    .ok (Function.update s x { s x with connection := connection })

def initial : End → Peer Msg := fun _ => ⟨TcpConnection.initial,[],0,[]⟩

def machine : Machine (End → Peer Msg) (End × Label rt) Halt := ⟨fun s => s = initial,fun s a => step rt p s a.1 a.2⟩

/-- The messages that some Sends of a program handed over. -/
def Peer.messages (peer : Peer Msg) (cs : List Call) : List Msg := cs.filterMap fun c => peer.sent[c.number]?

/-! One connection: what it keeps of its input, and what it adds to its stream. -/

section Connection
variable {threadId : Thread} {cb : TcpConnection.CallBacks} {c d : TcpConnection.State}

/-- The stream grows unless ::write fails, and the input waits for the next read. -/
structure Grows (fails : Prop) (c d : TcpConnection.State) : Prop where
  input : d.inputBuffer = c.inputBuffer
  wire : c.wire <+: d.wire
  accepted : c.accepted <+: d.accepted
  still : fails → d.wire = c.wire

theorem Grows.of_eq {fails : Prop} (hi : d.inputBuffer = c.inputBuffer) (hw : d.wire = c.wire)
    (ha : d.accepted = c.accepted) : Grows fails c d :=
  ⟨hi,by rw [hw],by rw [ha],fun _ => hw⟩

theorem Grows.imp {fails fails' : Prop} (h : Grows fails c d) (hf : fails' → fails) : Grows fails' c d :=
  ⟨h.input,h.wire,h.accepted,fun hp => h.still (hf hp)⟩

private theorem grows_shutDownInLoop (fails : Prop) (c : TcpConnection.State) : Grows fails c c.shutDownInLoop := by
  unfold TcpConnection.State.shutDownInLoop
  split
  · exact .of_eq rfl rfl rfl
  · exact .of_eq rfl rfl rfl

private theorem grows_sendInLoop {call : Call} {answer : Except Int Nat} (hb : c.outputBuffer.WF)
    (hs : c.sendInLoop cb call answer = .ok d) : Grows (answer.isOk = false) c d ∧ d.calls = c.calls := by
  rcases TcpConnection.sendInLoop_cases hb hs with ⟨-,rfl⟩ | ⟨-,n,b,-,hn,-,-,rfl⟩
  · exact ⟨.of_eq rfl rfl rfl,rfl⟩
  · refine ⟨⟨rfl,List.prefix_append ..,List.prefix_append ..,fun hfails => ?_⟩,rfl⟩
    have hzero : n = 0 := by
      cases answer with
      | ok k => cases hfails
      | error errno => rw [hn,TcpConnection.State.nWrite,TcpConnection.nWriteOf,ite_self]
    rw [hzero,List.take_zero,List.append_nil]

/-- A Send of a buffer, by the number of the calls before it. -/
theorem grows_send {t : Thread} {b : Buffer} (hbuf : b.WF) {answer : Except Int Nat} (hb : c.outputBuffer.WF)
    (hs : TcpConnection.step threadId cb c (.send t (.buffer (some b)) answer) = .ok d) :
    Grows (answer.isOk = false) c d ∧ d.calls = if c.connectState = .connected then c.calls ++ [⟨t,c.calls.length,b.readable⟩] else c.calls := by
  have hpayload : (TcpConnection.Message.buffer (some b)).payload = .ok (some b.readable) := by
    have hpeek := Buffer.peek_ok hbuf le_rfl
    rw [← hbuf.readable_length,List.take_length] at hpeek
    simp only [TcpConnection.Message.payload,← hbuf.readable_length,hpeek,ok_bind]
  obtain ⟨-,⟨rfl,hm⟩ | ⟨bytes,hm,hconnected,hs⟩⟩ := TcpConnection.send_cases hs
  · rcases hm with hm | ⟨bytes,-,hclosed⟩
    · cases hpayload.symm.trans hm
    · rw [if_neg hclosed]
      exact ⟨.of_eq rfl rfl rfl,rfl⟩
  · cases hpayload.symm.trans hm
    rw [if_pos hconnected]
    rcases hs with ⟨-,hs⟩ | ⟨-,rfl⟩
    · obtain ⟨hg,hcalls⟩ := grows_sendInLoop (c := { c with calls := c.calls ++ [⟨t,c.calls.length,b.readable⟩] }) hb hs
      exact ⟨⟨hg.input,hg.wire,hg.accepted,hg.still⟩,hcalls⟩
    · exact ⟨.of_eq rfl rfl rfl,rfl⟩

private theorem grows_runFunctor {answer : Except Int Nat} (hb : c.outputBuffer.WF)
    (hs : TcpConnection.step threadId cb c (.runFunctor answer) = .ok d) :
    Grows (answer.isOk = false) c d ∧ d.calls = c.calls := by
  simp only [TcpConnection.step] at hs
  split at hs
  · cases hs
  · rename_i f rest hf
    cases f with
    | sendInLoop call =>
      obtain ⟨hg,hcalls⟩ := grows_sendInLoop (c := { c with functors := rest }) hb hs
      exact ⟨⟨hg.input,hg.wire,hg.accepted,hg.still⟩,hcalls⟩
    | shutDownInLoop =>
      cases hs
      have hg := grows_shutDownInLoop (answer.isOk = false) { c with functors := rest }
      refine ⟨⟨hg.input,hg.wire,hg.accepted,hg.still⟩,?_⟩
      unfold TcpConnection.State.shutDownInLoop
      split <;> rfl
    | writeComplete =>
      cases hs
      exact ⟨.of_eq rfl rfl rfl,rfl⟩
    | connectedDestroyed =>
      simp only [TcpConnection.State.runFunctor,TcpConnection.State.connectedDestroyed,bind_ok_iff,Except.ok.injEq] at hs
      obtain ⟨-,-,rfl⟩ := hs
      exact ⟨.of_eq rfl rfl rfl,rfl⟩

/-- Every step but a Send and a read. -/
theorem grows_proceed {a : TcpConnection.Label} (ha : Allowed c a) (hb : c.outputBuffer.WF)
    (hs : TcpConnection.step threadId cb c a = .ok d) : Grows (c.shutDown = true) c d ∧ d.calls = c.calls := by
  cases a with
  | send | handleRead => exact ha.elim
  | shutDown t =>
    simp only [TcpConnection.step,bind_ok_iff,ensure_ok_iff] at hs
    obtain ⟨-,-,hs⟩ := hs
    split at hs
    · split at hs
      · cases hs
        have hg := grows_shutDownInLoop (c.shutDown = true) { c with connectState := .disconnecting }
        refine ⟨⟨hg.input,hg.wire,hg.accepted,hg.still⟩,?_⟩
        unfold TcpConnection.State.shutDownInLoop
        split <;> rfl
      · cases hs
        exact ⟨.of_eq rfl rfl rfl,rfl⟩
    · cases hs
      exact ⟨.of_eq rfl rfl rfl,rfl⟩
  | proceed t =>
    simp only [TcpConnection.step] at hs
    split at hs <;> cases hs <;> exact ⟨.of_eq rfl rfl rfl,rfl⟩
  | connectedEstablished =>
    simp only [TcpConnection.step,TcpConnection.State.connectedEstablished,bind_ok_iff,Except.ok.injEq] at hs
    obtain ⟨-,-,rfl⟩ := hs
    exact ⟨.of_eq rfl rfl rfl,rfl⟩
  | handleWrite answer =>
    rcases TcpConnection.handleWrite_cases hb hs with ⟨-,rfl⟩ | ⟨-,n,b,rfl,-,-,-,-,rfl⟩
    · exact ⟨.of_eq rfl rfl rfl,rfl⟩
    · refine ⟨⟨rfl,List.prefix_append ..,List.prefix_refl _,fun hshut => ?_⟩,rfl⟩
      cases ha hshut
  | handleClose =>
    simp only [TcpConnection.step,TcpConnection.State.handleClose,bind_ok_iff,Except.ok.injEq] at hs
    obtain ⟨-,-,-,-,rfl⟩ := hs
    exact ⟨.of_eq rfl rfl rfl,rfl⟩
  | queueConnectedDestroyed =>
    simp only [TcpConnection.step,bind_ok_iff,Except.ok.injEq] at hs
    obtain ⟨-,-,rfl⟩ := hs
    exact ⟨.of_eq rfl rfl rfl,rfl⟩
  | swapFunctors =>
    simp only [TcpConnection.step,bind_ok_iff,Except.ok.injEq] at hs
    obtain ⟨-,-,rfl⟩ := hs
    exact ⟨.of_eq rfl rfl rfl,rfl⟩
  | runFunctor answer => exact (grows_runFunctor hb hs).imp_left fun hg => hg.imp ha

/-- A read leaves the stream alone; the callback sees the bytes behind those that waited. -/
theorem handleRead_data (message : Buffer → Buffer) (hcb : cb.message = some message) (hb : c.inputBuffer.WF)
    {data : List UInt8} (hdata : data ≠ []) {b : Buffer} {n saved : Int}
    (hread : c.inputBuffer.readFd 0 (.ok data) = .ok (b,n,saved))
    (hs : TcpConnection.step threadId cb c (.handleRead (.ok data)) = .ok d) :
    d = { c with inputBuffer := message b, events := c.events ++ [.message b.readable] } := by
  obtain ⟨b',he,-,-⟩ := Buffer.readFd_ok hb 0 data
  cases hread.symm.trans he
  have hpos : (0 : Int) < data.length := by exact_mod_cast List.length_pos_iff.mpr hdata
  simp only [TcpConnection.step,bind_ok_iff,ensure_ok_iff,TcpConnection.State.handleRead,he,ok_bind,if_pos hpos,hcb] at hs
  obtain ⟨-,-,hs⟩ := hs
  cases hs
  rfl

/-- At the end of the stream, and after an error, nothing is read. -/
theorem handleRead_nothing {answer : Except Int (List UInt8)} (hb : c.inputBuffer.WF)
    (ha : answer = .ok [] ∨ ∃ errno, answer = .error errno)
    (hs : TcpConnection.step threadId cb c (.handleRead answer) = .ok d) :
    d.inputBuffer.WF ∧ d.inputBuffer.readable = c.inputBuffer.readable ∧ d.wire = c.wire ∧ d.accepted = c.accepted ∧
      d.calls = c.calls := by
  simp only [TcpConnection.step,bind_ok_iff,ensure_ok_iff,TcpConnection.State.handleRead] at hs
  obtain ⟨-,-,⟨b,n,saved⟩,hread,hs⟩ := hs
  rcases ha with rfl | ⟨errno,rfl⟩
  · obtain ⟨b',he,hwf,hreadable⟩ := Buffer.readFd_ok hb 0 []
    cases hread.symm.trans he
    simp only [List.length_nil,Nat.cast_zero,lt_irrefl,if_false,if_true,TcpConnection.State.handleClose,bind_ok_iff,
      Except.ok.injEq] at hs
    obtain ⟨-,-,rfl⟩ := hs
    exact ⟨hwf,by rw [hreadable,List.append_nil],rfl,rfl,rfl⟩
  · cases hread
    cases hs
    exact ⟨hb,rfl,rfl,rfl,rfl⟩

end Connection

/-! What one end sent, and what the other end has of it. -/

section Peer
variable {rt}
variable {peer : Peer Msg} {threadId : Thread}

variable (rt) in
structure Sent (peer : Peer Msg) : Prop where
  sendable : ∀ m ∈ peer.sent, Sendable rt m
  payloads : peer.connection.calls.map Call.payload = peer.sent.map (frame rt)

variable (rt) in
/-- What was read is in the messages delivered and in the input buffer, and nowhere else. -/
structure Received (peer : Peer Msg) (wire : List UInt8) : Prop where
  buffer : peer.connection.inputBuffer.WF
  taken : peer.taken ≤ wire.length
  delivered : ∃ values, (decoder rt).drain (wire.take peer.taken) = ⟨values,none,peer.connection.inputBuffer.readable⟩ ∧
    peer.delivered = values.map .message

theorem Received.mono {wire wire' : List UInt8} (h : Received rt peer wire) (hw : wire <+: wire') : Received rt peer wire' := by
  obtain ⟨more,rfl⟩ := hw
  refine ⟨h.buffer,?_,?_⟩
  · rw [List.length_append]
    exact Nat.le_add_right_of_le h.taken
  · rw [List.take_append_of_le_length h.taken]
    exact h.delivered

/-- The number of a call is its place. -/
theorem Sent.message (h : Sent rt peer) (hi : TcpConnection.StreamInv threadId peer.connection) {c : Call}
    (hc : c ∈ peer.connection.calls) : ∃ m, peer.sent[c.number]? = some m ∧ frame rt m = c.payload := by
  obtain ⟨i,hlt,rfl⟩ := List.mem_iff_getElem.mp hc
  have hnumber : peer.connection.calls[i].number = i := by
    have hn := congrArg (fun l => l[i]?) hi.numbered
    simpa [hlt] using hn
  have hp := congrArg (fun l => l[i]?) h.payloads
  simp only [List.getElem?_map,List.getElem?_eq_getElem hlt,Option.map_some] at hp
  obtain ⟨m,hm,hframe⟩ := Option.map_eq_some_iff.mp hp.symm
  exact ⟨m,by rw [hnumber]; exact hm,hframe⟩

theorem Sent.frames (h : Sent rt peer) (hi : TcpConnection.StreamInv threadId peer.connection) (cs : List Call)
    (hcs : cs ⊆ peer.connection.calls) : (peer.messages cs).map (frame rt) = cs.map Call.payload := by
  induction cs with
  | nil => rfl
  | cons c cs ih =>
    obtain ⟨hc,hcs⟩ := List.cons_subset.mp hcs
    obtain ⟨m,hm,hframe⟩ := h.message hi hc
    have hrest := ih hcs
    rw [Peer.messages] at hrest ⊢
    rw [List.filterMap_cons,hm,List.map_cons,List.map_cons,hframe,hrest]

theorem Sent.encodes (h : Sent rt peer) (cs : List Call) :
    List.Forall₂ (decoder rt).Encodes (peer.messages cs) ((peer.messages cs).map (frame rt)) := by
  rw [List.forall₂_map_right_iff]
  refine List.forall₂_same.mpr fun m hm => ?_
  obtain ⟨c,-,hc⟩ := List.mem_filterMap.mp hm
  have hs := h.sendable m (List.mem_of_getElem? hc)
  exact encodes_frame rt hs.registered hs.faithful hs.named hs.fits

/-- The first bytes of the stream, read by the codec: the messages of the sends that were
accepted first. -/
theorem Sent.drain_wire (h : Sent rt peer) (hi : TcpConnection.StreamInv threadId peer.connection) {n : Nat}
    (hn : n ≤ peer.connection.wire.length) :
    let ms := peer.messages peer.connection.accepted
    let k := Decoder.complete (ms.map (frame rt)) n
    (decoder rt).drain (peer.connection.wire.take n) =
      ⟨ms.take k,none,((ms.map (frame rt)).flatten.take n).drop ((ms.map (frame rt)).take k).flatten.length⟩ := by
  have hframes := h.frames hi peer.connection.accepted fun c hc => hi.accepted_calls hc
  have hstream : peer.connection.wire.take n = ((peer.messages peer.connection.accepted).map (frame rt)).flatten.take n := by
    rw [hframes,← List.flatMap_def,← hi.stream,List.take_append_of_le_length hn]
  rw [hstream]
  exact Decoder.drain_frames (h.encodes _) n

/-- A read takes the next bytes of the other end's stream. -/
theorem Received.handleRead {q : Program} {other t : Peer Msg} (h : Received rt peer other.connection.wire)
    (hsent : Sent rt other) (hi : TcpConnection.StreamInv threadId other.connection) {n : Nat}
    (hn : n ≤ (other.connection.wire.drop peer.taken).length)
    (hs : peer.handleRead rt q ((other.connection.wire.drop peer.taken).take n) = .ok t) :
    Received rt t other.connection.wire ∧ t.sent = peer.sent ∧ t.taken = peer.taken + n ∧
      t.connection.wire = peer.connection.wire ∧ t.connection.accepted = peer.connection.accepted ∧
      t.connection.calls = peer.connection.calls := by
  have hlength : ((other.connection.wire.drop peer.taken).take n).length = n := by
    rw [List.length_take,Nat.min_eq_left hn]
  have hwhole : other.connection.wire.take (peer.taken + n) =
      other.connection.wire.take peer.taken ++ (other.connection.wire.drop peer.taken).take n := List.take_add
  have hle : peer.taken + n ≤ other.connection.wire.length := by
    have := h.taken
    rw [List.length_drop] at hn
    omega
  generalize (other.connection.wire.drop peer.taken).take n = data at hs hlength hwhole
  obtain ⟨values,hdrain,hdelivered⟩ := h.delivered
  simp only [Peer.handleRead,bind_ok_iff,Except.ok.injEq] at hs
  obtain ⟨d,hstep,⟨b,k,saved⟩,hread,⟨b₂,calls⟩,hloop,rfl⟩ := hs
  by_cases hdata : data = []
  · obtain ⟨hwf,hreadable,hwire,haccepted,hcalls⟩ := handleRead_nothing h.buffer (.inl (by rw [hdata])) hstep
    have hzero : n = 0 := by rw [← hlength,hdata]; rfl
    refine ⟨⟨hwf,by rwa [hlength],values,?_,?_⟩,rfl,by rw [hlength],hwire,haccepted,hcalls⟩
    · simp only [hlength,hzero,Nat.add_zero,hreadable]
      exact hdrain
    · rw [if_pos hdata]
      exact hdelivered
  · obtain ⟨b',he,hwf,hreadable⟩ := Buffer.readFd_ok h.buffer 0 data
    cases hread.symm.trans he
    have hd := handleRead_data (q.onMessage rt) rfl h.buffer hdata he hstep
    obtain ⟨b₁,hwf₁,hread₁,hrun⟩ := onMessage_ok rt q.errorCallBack hwf
    have hall := (decoder rt).drain_append (other.connection.wire.take peer.taken) data
    rw [← hwhole,hdrain] at hall
    simp only [← hreadable] at hall
    -- frames of the other end drain without an error
    have herror : ((decoder rt).drain b.readable).error = none := by
      have hnone := congrArg Drained.error (hsent.drain_wire hi hle)
      rw [hall] at hnone
      exact hnone
    rw [herror] at hrun hall
    simp only [Option.elim_none,events,Option.map_none,Option.toList_none,List.append_nil] at hrun
    have hmessage : q.onMessage rt b = b₁ := by rw [Program.onMessage,hrun]
    cases hloop.symm.trans hrun
    rw [hd,hmessage]
    refine ⟨⟨hwf₁,by rwa [hlength],values ++ ((decoder rt).drain b.readable).values,?_,?_⟩,rfl,by rw [hlength],rfl,rfl,rfl⟩
    · rw [hlength,hall,hread₁]
    · rw [if_neg hdata,hdelivered,List.map_append]

end Peer

/-! Messages of the type Test.Empty between two programs. -/

theorem sendable_empty (m : Option (Fin 128)) : Sendable emptyRuntime m := by
  refine ⟨rfl,⟨(),none,rfl,rfl⟩,?_,List.cons_ne_nil _ _,?_⟩
  · cases m with
    | none => exact ⟨by decide,fun d p _ _ => by rfl⟩
    | some v =>
      have hsmall : (UInt8.ofNat v.val).toNat = v.val := by
        rw [UInt8.toNat_ofNat']
        exact Nat.mod_eq_of_lt (by omega)
      refine ⟨rfl,fun d p _ _ => ?_⟩
      change (if h : (UInt8.ofNat v.val).toNat < 128 then ((some ⟨(UInt8.ofNat v.val).toNat,h⟩,true) : Option (Fin 128) × Bool)
        else (none,false)) = (some v,true)
      rw [dif_pos (by omega)]
      exact Prod.ext (congrArg some (Fin.ext hsmall)) rfl
  · rw [layout_length]
    cases m with
    | none => decide
    | some v => exact (by decide : ((10 + 2 + 9 : Nat) : Int) ≤ maxMessageLength)

def plain : End → Program := fun _ => ⟨0,true,false,fun b _ => b⟩

/-- The loop thread's message is written in two parts, and another thread's is queued. -/
def twoSends : List (End × Label emptyRuntime) := [(.client,.proceed .connectedEstablished),
  (.server,.proceed .connectedEstablished),(.client,.send 0 ⟨some 43,sendable_empty _⟩ (.ok 20)),
  (.client,.send 1 ⟨none,sendable_empty _⟩ (.ok 0)),(.client,.proceed (.proceed 1)),(.server,.receive 20),
  (.client,.proceed (.handleWrite (.ok 5))),(.client,.proceed .swapFunctors),(.client,.proceed (.runFunctor (.ok 10))),
  (.server,.receive 15)]

/-! Both ends together. -/

section Runs
variable {rt}
variable {p : End → Program} {s t : End → Peer Msg} {x : End}

variable (rt p) in
structure Inv (s : End → Peer Msg) : Prop where
  reachable : ∀ x, (TcpConnection.machine (p x).threadId ((p x).callBacks rt)).Reachable (s x).connection
  sent : ∀ x, Sent rt (s x)
  received : ∀ x, Received rt (s x) (s x.other).connection.wire

theorem Inv.stream (h : Inv rt p s) (x : End) : TcpConnection.StreamInv (p x).threadId (s x).connection :=
  TcpConnection.streamInv_reachable (h.reachable x)

theorem Inv.step {a : TcpConnection.Label} {c : TcpConnection.State} (h : Inv rt p s)
    (hs : TcpConnection.step (p x).threadId ((p x).callBacks rt) (s x).connection a = .ok c) :
    (TcpConnection.machine (p x).threadId ((p x).callBacks rt)).Reachable c :=
  (h.reachable x).step (a := a) hs

/-- A step of one end, which the other end sees by the growth of the stream. -/
theorem Inv.update {peer : Peer Msg} (h : Inv rt p s)
    (hreach : (TcpConnection.machine (p x).threadId ((p x).callBacks rt)).Reachable peer.connection)
    (hsent : Sent rt peer) (hreceived : Received rt peer (s x.other).connection.wire)
    (hw : (s x).connection.wire <+: peer.connection.wire) : Inv rt p (Function.update s x peer) := by
  refine ⟨fun y => ?_,fun y => ?_,fun y => ?_⟩
  · by_cases hy : y = x
    · rw [hy,Function.update_self]
      exact hreach
    · rw [Function.update_of_ne hy]
      exact h.reachable y
  · by_cases hy : y = x
    · rw [hy,Function.update_self]
      exact hsent
    · rw [Function.update_of_ne hy]
      exact h.sent y
  · by_cases hy : y = x
    · rw [hy,Function.update_self,Function.update_of_ne (End.other_ne x)]
      exact hreceived
    · have hother : y.other = x := by cases y <;> cases x <;> first | rfl | exact absurd rfl hy
      have hr := h.received y
      rw [hother] at hr ⊢
      rw [Function.update_of_ne hy,Function.update_self]
      exact hr.mono hw

theorem inv_initial : Inv rt p (initial : End → Peer Msg) := by
  refine ⟨fun x => ⟨_,[],rfl,rfl⟩,fun x => ⟨fun m hm => (by cases hm),rfl⟩,fun x => ⟨Buffer.new_wf,le_rfl,[],?_,rfl⟩⟩
  exact (decoder rt).drain_wait (decoder rt).look_nil

private theorem received_of_grows {peer peer' : Peer Msg} {wire : List UInt8} (h : Received rt peer wire)
    (hi : peer'.connection.inputBuffer = peer.connection.inputBuffer) (ht : peer'.taken = peer.taken)
    (hd : peer'.delivered = peer.delivered) : Received rt peer' wire := by
  refine ⟨by rw [hi]; exact h.buffer,by rw [ht]; exact h.taken,?_⟩
  rw [hi,ht,hd]
  exact h.delivered

/-- The codec's buffer for a message that may be sent. -/
private theorem fill_sendable {m : Msg} (hm : Sendable rt m) {buf : Buffer} (hfill : fillEmptyBuffer rt (some .new) m = .ok buf) :
    buf.WF ∧ buf.readable = frame rt m := by
  have hfits := hm.fits
  rw [layout_length,maxMessageLength] at hfits
  obtain ⟨buf',hfill',hwf,hread⟩ := fillEmptyBuffer_ok rt Buffer.new_wf Buffer.readable_new hm.faithful.byteSize_eq
    hm.initialized (by omega)
  cases hfill.symm.trans hfill'
  exact ⟨hwf,hread⟩

private theorem inv_send {u : Thread} {m : {m // Sendable rt m}} {answer : Except Int Nat} (h : Inv rt p s)
    (hs : step rt p s x (.send u m answer) = .ok t) : Inv rt p t := by
  simp only [step,bind_ok_iff,ensure_ok_iff,Except.ok.injEq] at hs
  obtain ⟨-,-,buf,hfill,c,hstep,rfl⟩ := hs
  have hm := m.property
  obtain ⟨hwf,hread⟩ := fill_sendable hm hfill
  obtain ⟨hg,hcalls⟩ := grows_send hwf (h.stream x).buffer hstep
  refine h.update (h.step hstep) ?_ (received_of_grows (h.received x) hg.input rfl rfl) hg.wire
  have hsent := h.sent x
  by_cases hconnected : (s x).connection.connectState = .connected
  · rw [if_pos hconnected] at hcalls
    constructor
    · intro m' hm'
      simp only [if_pos hconnected] at hm'
      rcases List.mem_append.mp hm' with hm' | hm'
      · exact hsent.sendable m' hm'
      · rw [List.mem_singleton.mp hm']
        exact hm
    · simp only [if_pos hconnected,hcalls,List.map_append,hsent.payloads,List.map_cons,List.map_nil,hread]
  · rw [if_neg hconnected] at hcalls
    exact ⟨by simpa only [if_neg hconnected] using hsent.sendable,
      by simpa only [if_neg hconnected,hcalls] using hsent.payloads⟩

theorem inv_step {a : Label rt} (h : Inv rt p s) (hs : step rt p s x a = .ok t) : Inv rt p t := by
  cases a with
  | send u m answer => exact inv_send h hs
  | receive n =>
    simp only [step,bind_ok_iff,ensure_ok_iff,Except.ok.injEq] at hs
    obtain ⟨-,⟨hn,-⟩,-,-,peer,hpeer,rfl⟩ := hs
    obtain ⟨hreceived,hsent,-,hwire,-,hcalls⟩ := (h.received x).handleRead (h.sent x.other) (h.stream x.other) hn hpeer
    have hreach : (TcpConnection.machine (p x).threadId ((p x).callBacks rt)).Reachable peer.connection := by
      simp only [Peer.handleRead,bind_ok_iff,Except.ok.injEq] at hpeer
      obtain ⟨c,hstep,-,-,-,-,rfl⟩ := hpeer
      exact h.step hstep
    refine h.update hreach ⟨?_,?_⟩ hreceived (by rw [hwire])
    · rw [hsent]
      exact (h.sent x).sendable
    · rw [hcalls,hsent]
      exact (h.sent x).payloads
  | receiveError errno =>
    simp only [step,bind_ok_iff,Except.ok.injEq] at hs
    obtain ⟨c,hstep,rfl⟩ := hs
    obtain ⟨hwf,hreadable,hwire,-,hcalls⟩ := handleRead_nothing (h.received x).buffer (.inr ⟨errno,rfl⟩) hstep
    refine h.update (h.step hstep) ⟨(h.sent x).sendable,?_⟩ ⟨hwf,(h.received x).taken,?_⟩ (by rw [hwire])
    · rw [hcalls]
      exact (h.sent x).payloads
    · rw [hreadable]
      exact (h.received x).delivered
  | proceed a =>
    simp only [step,bind_ok_iff,ensure_ok_iff,Except.ok.injEq] at hs
    obtain ⟨-,hallowed,c,hstep,rfl⟩ := hs
    obtain ⟨hg,hcalls⟩ := grows_proceed hallowed (h.stream x).buffer hstep
    refine h.update (h.step hstep) ⟨(h.sent x).sendable,?_⟩
      (received_of_grows (h.received x) hg.input rfl rfl) hg.wire
    rw [hcalls]
    exact (h.sent x).payloads

theorem reachable_inv (h : (machine rt p).Reachable s) : Inv rt p s := by
  refine h.invariant (P := Inv rt p) ?_ ?_
  · rintro s rfl
    exact inv_initial
  · intro s a t hi hs
    exact inv_step hi hs

private theorem filterMap_range {α : Type} (l : List α) (n : Nat) : (List.range n).filterMap (fun i => l[i]?) = l.take n := by
  induction n with
  | zero => rfl
  | succ n ih =>
    rw [List.range_succ,List.filterMap_append,ih,List.take_add_one]
    cases hn : l[n]? <;> simp [hn]

/-- What was delivered is decided by the number of bytes read. -/
theorem Inv.delivered (h : Inv rt p s) (x : End) :
    (s x).delivered = (((s x.other).messages (s x.other).connection.accepted).take (Decoder.complete
      (((s x.other).messages (s x.other).connection.accepted).map (frame rt)) (s x).taken)).map .message := by
  obtain ⟨values,hdrain,hdelivered⟩ := (h.received x).delivered
  have hvalues := congrArg Drained.values
    (hdrain.symm.trans ((h.sent x.other).drain_wire (h.stream x.other) (h.received x).taken))
  rw [hdelivered]
  exact congrArg (List.map Event.message) hvalues

private theorem Inv.delivered_all (h : Inv rt p s) (hempty : (s x.other).connection.outputBuffer.readable = [])
    (htaken : (s x).taken = (s x.other).connection.wire.length) :
    (s x).delivered = ((s x.other).messages (s x.other).connection.accepted).map .message := by
  have hi := h.stream x.other
  have hframes := (h.sent x.other).frames hi (s x.other).connection.accepted fun c hc => hi.accepted_calls hc
  have hlength : (s x).taken = (((s x.other).messages (s x.other).connection.accepted).map (frame rt)).flatten.length := by
    rw [htaken,hframes,← List.flatMap_def,← hi.stream,hempty,List.append_nil]
  rw [h.delivered,hlength,Decoder.complete_all,List.length_map,List.take_length]

private theorem Inv.messages_calls (h : Inv rt p s) (x : End) : (s x).messages (s x).connection.calls = (s x).sent := by
  have hnumbers : (s x).connection.calls.length = (s x).sent.length := by
    simpa using congrArg List.length (h.sent x).payloads
  have hmap : (fun c : Call => (s x).sent[c.number]?) = (fun i => (s x).sent[i]?) ∘ Call.number := rfl
  rw [Peer.messages,hmap,← List.filterMap_map,(h.stream x).numbered,hnumbers,filterMap_range,List.take_length]

private theorem Inv.threads (h : Inv rt p s) (x : End) (t : Thread) :
    (ofThread t (s x).connection.accepted).Sublist (ofThread t (s x).connection.calls) ∧
      (ofThread t (s x).connection.calls).Nodup := by
  have hi := h.stream x
  constructor
  · refine List.Sublist.trans ?_ (hi.order t)
    simp only [TcpConnection.State.pipeline,List.append_assoc]
    exact List.sublist_append_left ..
  · refine List.Nodup.filter _ (List.Nodup.of_map Call.number ?_)
    rw [hi.numbered]
    exact List.nodup_range

/-- In every interleaving of the threads and loops of both programs, for all write results and
however the bytes arrive: what an end was given are the messages whose frames have arrived
whole, each once and unchanged, in the order in which the other end's Sends were executed, and
no error; that order keeps each thread's; and once everything is written and read, it is all
of them. -/
theorem messages_in_order (h : (machine rt p).Reachable s) (x : End) :
    let other := s x.other
    let ms := other.messages other.connection.accepted
    (s x).delivered = (ms.take (Decoder.complete (ms.map (frame rt)) (s x).taken)).map .message ∧
      (other.connection.outputBuffer.readable = [] → (s x).taken = other.connection.wire.length → (s x).delivered = ms.map .message) ∧
      other.messages other.connection.calls = other.sent ∧
      ∀ t, (ofThread t other.connection.accepted).Sublist (ofThread t other.connection.calls) ∧
        (ofThread t other.connection.calls).Nodup := by
  have hinv := reachable_inv h
  exact ⟨hinv.delivered x,hinv.delivered_all,hinv.messages_calls x.other,hinv.threads x.other⟩

/-- The second message is still on its way. -/
theorem messages_in_order_twoSends : ∃ s, (machine emptyRuntime plain).Reachable s ∧ (s .client).sent = [some 43,none] ∧
    (s .server).delivered = [.message (some 43)] ∧ (s .client).messages (s .client).connection.calls = (s .client).sent := by
  obtain ⟨s,hr,hv⟩ := (machine emptyRuntime plain).exists_reachable rfl twoSends
    (fun s => ((s .client).sent,(s .server).delivered)) (b := ([some 43,none],[.message (some 43)])) (by decide +kernel)
  obtain ⟨hsent,hdelivered⟩ := Prod.mk.inj hv
  exact ⟨s,hr,hsent,hdelivered,(messages_in_order hr .server).2.2.1⟩

/-! The end of a stream. -/

/-- An open connection was shut down behind a whole number of messages. -/
def Whole (c : TcpConnection.State) : Prop :=
  c.shutDown = true → c.Open → ∃ k ≤ c.accepted.length, c.wire = (c.accepted.take k).flatMap Call.payload

private theorem whole_step {threadId : Thread} {cb : TcpConnection.CallBacks} {c d : TcpConnection.State}
    {a : TcpConnection.Label} (h : Whole c) (hr : (TcpConnection.machine threadId cb).Reachable c)
    (hs : TcpConnection.step threadId cb c a = .ok d) (haccepted : c.accepted <+: d.accepted)
    (hstill : c.shutDown = true → d.wire = c.wire) : Whole d := by
  intro hshut hopen
  have hb := (TcpConnection.streamInv_reachable hr).buffer
  have hopen' := TcpConnection.open_of_step hb hs hopen
  rcases (TcpConnection.shutDown_iff hb hs).mp hshut with hbefore | hshuts
  · obtain ⟨k,hk,hwire⟩ := h hbefore hopen'
    obtain ⟨more,hmore⟩ := haccepted
    refine ⟨k,?_,?_⟩
    · rw [← hmore,List.length_append]
      exact Nat.le_add_right_of_le hk
    · rw [hstill hbefore,hwire,← hmore,List.take_append_of_le_length hk]
  · have hempty := TcpConnection.readable_of_shutsDown hb (TcpConnection.writeInv_reachable hr) hopen' hs hshuts
    have hstream := (TcpConnection.streamInv_reachable (hr.step (a := a) hs)).stream
    rw [hempty,List.append_nil] at hstream
    exact ⟨d.accepted.length,le_rfl,by rw [List.take_length,hstream]⟩

private theorem whole_update {peer : Peer Msg} (h : ∀ y, Whole (s y).connection) (hw : Whole peer.connection) :
    ∀ y, Whole (Function.update s x peer y).connection := by
  intro y
  by_cases hy : y = x
  · rw [hy,Function.update_self]
    exact hw
  · rw [Function.update_of_ne hy]
    exact h y

private theorem wholes_step {a : Label rt} (h : Inv rt p s) (hwhole : ∀ y, Whole (s y).connection)
    (hs : step rt p s x a = .ok t) : ∀ y, Whole (t y).connection := by
  cases a with
  | send u m answer =>
    simp only [step,bind_ok_iff,ensure_ok_iff,Except.ok.injEq] at hs
    obtain ⟨-,hpossible,buf,hfill,c,hstep,rfl⟩ := hs
    obtain ⟨hg,-⟩ := grows_send (fill_sendable m.property hfill).1 (h.stream x).buffer hstep
    exact whole_update hwhole (whole_step (hwhole x) (h.reachable x) hstep hg.accepted fun hshut => hg.still (hpossible hshut))
  | receive n =>
    simp only [step,bind_ok_iff,ensure_ok_iff,Except.ok.injEq] at hs
    obtain ⟨-,⟨hn,-⟩,-,-,peer,hpeer,rfl⟩ := hs
    obtain ⟨-,-,-,hwire,haccepted,-⟩ := (h.received x).handleRead (h.sent x.other) (h.stream x.other) hn hpeer
    have hstep := hpeer
    simp only [Peer.handleRead,bind_ok_iff,Except.ok.injEq] at hstep
    obtain ⟨c,hstep,r,-,q,-,he⟩ := hstep
    have hc : peer.connection = c := congrArg Peer.connection he.symm
    rw [← hc] at hstep
    exact whole_update hwhole (whole_step (hwhole x) (h.reachable x) hstep (by rw [haccepted]) fun _ => hwire)
  | receiveError errno =>
    simp only [step,bind_ok_iff,Except.ok.injEq] at hs
    obtain ⟨c,hstep,rfl⟩ := hs
    obtain ⟨-,-,hwire,haccepted,-⟩ := handleRead_nothing (h.received x).buffer (.inr ⟨errno,rfl⟩) hstep
    exact whole_update hwhole (whole_step (hwhole x) (h.reachable x) hstep (by rw [haccepted]) fun _ => hwire)
  | proceed a =>
    simp only [step,bind_ok_iff,ensure_ok_iff,Except.ok.injEq] at hs
    obtain ⟨-,hallowed,c,hstep,rfl⟩ := hs
    obtain ⟨hg,-⟩ := grows_proceed hallowed (h.stream x).buffer hstep
    exact whole_update hwhole (whole_step (hwhole x) (h.reachable x) hstep hg.accepted hg.still)

theorem reachable_whole (h : (machine rt p).Reachable s) : ∀ y, Whole (s y).connection := by
  refine h.induction (P := fun s => ∀ y, Whole (s y).connection) ?_ ?_
  · rintro s rfl y hshut
    cases hshut
  · intro s a t hr hw hs
    exact wholes_step (reachable_inv hr) hw hs

/-- The stream of an end that shut it down, and has not seen the connection closed, ends
between two messages: who has read it to its end holds no part of a message, and was given
exactly the messages of the sends that were executed first. -/
theorem halfClose_between_messages (h : (machine rt p).Reachable s) (x : End)
    (hopen : (s x.other).connection.Open) (hshut : (s x.other).connection.shutDown = true)
    (hall : (s x).taken = (s x.other).connection.wire.length) :
    (s x).connection.inputBuffer.readable = [] ∧ ∃ k ≤ (s x.other).connection.accepted.length,
      (s x.other).connection.wire = ((s x.other).connection.accepted.take k).flatMap Call.payload ∧
        (s x).delivered = ((s x.other).messages ((s x.other).connection.accepted.take k)).map .message := by
  have hinv := reachable_inv h
  obtain ⟨k,hk,hwire⟩ := reachable_whole h x.other hshut hopen
  have hi := hinv.stream x.other
  have hframes := (hinv.sent x.other).frames hi ((s x.other).connection.accepted.take k)
    fun c hc => hi.accepted_calls (List.mem_of_mem_take hc)
  have hdrain := Decoder.drain_flatten ((hinv.sent x.other).encodes ((s x.other).connection.accepted.take k))
  rw [hframes,← List.flatMap_def,← hwire] at hdrain
  obtain ⟨values,hvalues,hdelivered⟩ := (hinv.received x).delivered
  rw [hall,List.take_length,hdrain] at hvalues
  obtain ⟨rfl,-,hrest⟩ := Drained.mk.inj hvalues
  exact ⟨hrest.symm,k,hk,hwire,hdelivered⟩

/-- A message, a shutdown, and the end of the stream. -/
theorem halfClose_between_messages_read : ∃ s, (machine emptyRuntime plain).Reachable s ∧
    (s .server).delivered = [.message (some 43)] ∧ (s .server).connection.inputBuffer.readable = [] := by
  obtain ⟨s,hr,hv⟩ := (machine emptyRuntime plain).exists_reachable rfl [(.client,.proceed .connectedEstablished),
    (.server,.proceed .connectedEstablished),(.client,.send 0 ⟨some 43,sendable_empty _⟩ (.ok 25)),
    (.client,.proceed (.shutDown 0)),(.server,.receive 25),(.server,.receive 0)]
    (fun s => ((s .server).delivered,decide ((s .client).connection.Open ∧ (s .client).connection.shutDown = true ∧
      (s .server).taken = (s .client).connection.wire.length))) (b := ([.message (some 43)],true)) (by decide +kernel)
  obtain ⟨hdelivered,hv⟩ := Prod.mk.inj hv
  obtain ⟨hopen,hshut,hall⟩ := of_decide_eq_true hv
  exact ⟨s,hr,hdelivered,(halfClose_between_messages hr .server hopen hshut hall).1⟩

/-! No message gets stuck. -/

/-- While the channel is reading, a read of bytes succeeds and leaves it so. -/
private theorem exists_handleRead (rt : Runtime Msg Descriptor) (q : Program) {peer : Peer Msg} (hb : peer.connection.inputBuffer.WF)
    (hlive : peer.connection.reading = true) {data : List UInt8} (hdata : data ≠ []) :
    ∃ t, peer.handleRead rt q data = .ok t ∧ t.connection.reading = true := by
  obtain ⟨b,hread,hwf,-⟩ := Buffer.readFd_ok hb 0 data
  obtain ⟨b',-,-,hloop⟩ := onMessage_ok rt q.errorCallBack hwf
  have hpos : (0 : Int) < data.length := by exact_mod_cast List.length_pos_iff.mpr hdata
  have hstep : TcpConnection.step q.threadId (q.callBacks rt) peer.connection (.handleRead (.ok data)) =
      .ok { peer.connection with
        inputBuffer := q.onMessage rt b
        events := peer.connection.events ++ [.message b.readable] } := by
    simp only [TcpConnection.step,ensure_of _ hlive,ok_bind,TcpConnection.State.handleRead,hread,if_pos hpos]
    rfl
  refine ⟨_,by simp only [Peer.handleRead,hstep,ok_bind,hread,hloop]; rfl,?_⟩
  exact hlive

/-- One end reads all that the other one wrote, in as many reads as it takes. -/
private theorem read_all {k : Nat} (h : (machine rt p).Reachable s) (hlive : (s x).connection.reading = true)
    (hk : (s x.other).connection.wire.length = (s x).taken + k) :
    ∃ as t, (machine rt p).run s as = .ok t ∧ (t x).taken = (t x.other).connection.wire.length ∧ t x.other = s x.other := by
  induction k using Nat.strong_induction_on generalizing s with
  | _ k ih =>
    rcases Nat.eq_zero_or_pos k with rfl | hpos
    · exact ⟨[],s,rfl,hk.symm,rfl⟩
    · have hinv := reachable_inv h
      have hlength : ((s x.other).connection.wire.drop (s x).taken).length = k := by
        rw [List.length_drop]
        omega
      have hsome : 0 < min k ((s x).connection.inputBuffer.writeableBytes + Buffer.extraBuf) := by
        rw [Buffer.extraBuf]
        omega
      generalize hn : min k ((s x).connection.inputBuffer.writeableBytes + Buffer.extraBuf) = n at hsome
      have hle : n ≤ ((s x.other).connection.wire.drop (s x).taken).length := by omega
      have hdata : ((s x.other).connection.wire.drop (s x).taken).take n ≠ [] := by
        rw [← List.length_pos_iff,List.length_take]
        omega
      obtain ⟨peer,hpeer,hlive'⟩ := exists_handleRead rt (p x) (hinv.received x).buffer hlive hdata
      obtain ⟨-,-,htaken,-,-,-⟩ := (hinv.received x).handleRead (hinv.sent x.other) (hinv.stream x.other) hle hpeer
      have hstep : (machine rt p).step s (x,.receive n) = .ok (Function.update s x peer) := by
        have hend : n = 0 → (s x.other).connection.wire.drop (s x).taken = [] ∧ Ended (s x.other).connection := by omega
        change step rt p s x (.receive n) = _
        simp only [step]
        rw [ensure_of _ ⟨hle,hend⟩,ok_bind,ensure_of _ (by omega),ok_bind,hpeer,ok_bind]
      have hother : Function.update s x peer x.other = s x.other := Function.update_of_ne (End.other_ne x) ..
      obtain ⟨as,t,hr,hall,ht⟩ := ih (k - n) (by omega) (s := Function.update s x peer) (h.step hstep)
        (by rw [Function.update_self]; exact hlive') (by rw [hother,Function.update_self,htaken]; omega)
      refine ⟨(x,.receive n) :: as,t,?_,hall,ht.trans hother⟩
      rw [Machine.run_cons,hstep]
      exact hr

/-- From every reachable state in which an end still reads, and the other end was neither
closed nor shut down with output pending, the loops alone can go on to a state where every
message whose send was executed has been delivered. -/
theorem accepted_deliverable (h : (machine rt p).Reachable s) (x : End) (hlive : (s x).connection.reading = true)
    (hopen : (s x.other).connection.Open)
    (hpending : (s x.other).connection.shutDown = true → (s x.other).connection.outputBuffer.readable = []) :
    ∃ as t, (machine rt p).run s as = .ok t ∧
      (t x).delivered = ((s x.other).messages (s x.other).connection.accepted).map .message := by
  have hinv := reachable_inv h
  have hi := hinv.stream x.other
  -- first the output buffer is written
  obtain ⟨as,u,hrun,hx,hsent,haccepted,hempty⟩ : ∃ as u, (machine rt p).run s as = .ok u ∧ u x = s x ∧
      (u x.other).sent = (s x.other).sent ∧ (u x.other).connection.accepted = (s x.other).connection.accepted ∧
      (u x.other).connection.outputBuffer.readable = [] := by
    by_cases hout : (s x.other).connection.outputBuffer.readable = []
    · exact ⟨[],s,rfl,rfl,rfl,rfl,hout⟩
    · have hwriting := (TcpConnection.writeInv_reachable (hinv.reachable x.other)).pending hopen hout
      have hpos := List.length_pos_iff.mpr hout
      obtain ⟨c,hc,-,-,hread⟩ := @TcpConnection.handleWrite_count ((p x.other).callBacks rt) _ _ hi.buffer hwriting hpos le_rfl
      have hallowed : Allowed (s x.other).connection
          (.handleWrite (.ok (s x.other).connection.outputBuffer.readable.length)) := fun hshut =>
        absurd (hpending hshut) hout
      refine ⟨[(x.other,.proceed (.handleWrite (.ok (s x.other).connection.outputBuffer.readable.length)))],
        Function.update s x.other { s x.other with connection := c },?_,?_,?_,?_,?_⟩
      · have hstep : TcpConnection.step (p x.other).threadId ((p x.other).callBacks rt) (s x.other).connection
            (.handleWrite (.ok (s x.other).connection.outputBuffer.readable.length)) = .ok c := hc
        rw [Machine.run_cons]
        change (step rt p s x.other (.proceed _) >>= fun t => .ok t) = _
        simp only [step,ensure_of _ hallowed,ok_bind,hstep]
      · exact Function.update_of_ne (End.other_ne x).symm ..
      · rw [Function.update_self]
      · rw [Function.update_self]
        rcases TcpConnection.handleWrite_cases hi.buffer hc with ⟨-,rfl⟩ | ⟨-,n,b,-,-,-,-,-,rfl⟩ <;> rfl
      · rw [Function.update_self]
        exact hread.trans (List.drop_eq_nil_of_le le_rfl)
  -- then the other end reads
  have hreach := h.run hrun
  have htaken := ((reachable_inv hreach).received x).taken
  obtain ⟨as',t,hrun',hall,hother⟩ := read_all hreach (by rw [hx]; exact hlive)
    (k := (u x.other).connection.wire.length - (u x).taken) (by omega)
  have hboth : (machine rt p).run s (as ++ as') = .ok t := by
    rw [Machine.run_append,hrun]
    exact hrun'
  have hdelivered := (reachable_inv (hreach.run hrun')).delivered_all (by rw [hother]; exact hempty) hall
  refine ⟨as ++ as',t,hboth,?_⟩
  rw [hdelivered,hother,Peer.messages,hsent,haccepted]
  rfl

/-- After the loop thread's first, short write. -/
theorem accepted_deliverable_shortWrite : ∃ s, (machine emptyRuntime plain).Reachable s ∧ (s .server).delivered = [] ∧
    ∃ as t, (machine emptyRuntime plain).run s as = .ok t ∧
      (t .server).delivered = ((s .client).messages (s .client).connection.accepted).map .message := by
  obtain ⟨s,hr,hv⟩ := (machine emptyRuntime plain).exists_reachable rfl (twoSends.take 3)
    (fun s => ((s .server).delivered,decide ((s .server).connection.reading = true ∧ (s .client).connection.Open ∧
      (s .client).connection.shutDown = false))) (b := ([],true)) (by decide +kernel)
  obtain ⟨hdelivered,hv⟩ := Prod.mk.inj hv
  obtain ⟨hlive,hopen,hshut⟩ := of_decide_eq_true hv
  exact ⟨s,hr,hdelivered,accepted_deliverable hr .server hlive hopen fun h => by cases hshut.symm.trans h⟩

end Runs

end LinuxServer.Protobuf.Exchange
