import LinuxServer.Lib.Machine

/-! Who closes a descriptor of the blocking library. A Socket has a destructor and so no
move constructor: std::move of one copies the number, and both objects close it. -/
namespace LinuxServer.Tcp.SocketOwnership
open LinuxServer.Lib

/-- An object with its descriptor; by which call of socket or accept it was obtained is
recorded for the statements only. -/
structure Socket where
  m_nSockFd : Int
  acquisition : Nat
  deriving DecidableEq

/-- What a descriptor in use was obtained by: a call of the library, or other code. -/
inductive User where
  | library (acquisition : Nat)
  | other
  deriving DecidableEq

structure State where
  /-- The descriptors in use. -/
  table : Int → Option User
  /-- How often the library has obtained a descriptor, and has closed one that a user had. -/
  acquired : Nat
  closes : User → Nat
  /-- The TcpStreams that live, and how many there have been. -/
  streams : Nat → Option Socket
  made : Nat

/-- The calls, with what the system calls in them return. -/
inductive Label where
  | connect (nSockFd nConnect : Int)
  | connectFrom (nSockFd nBind nConnect : Int)
  | accept (nSockFd : Int)
  | destroy (stream : Nat)
  /-- Other code of the process gets a descriptor, or closes one of its own. -/
  | openOther (fd : Int)
  | closeOther (fd : Int)
  deriving DecidableEq

def initial : State := ⟨fun _ => none,0,fun _ => 0,fun _ => none,0⟩

namespace State

/-- The system gives out a number that is not in use. -/
def acquire (s : State) (nSockFd : Int) : State × Socket :=
  ({ s with
    table := Function.update s.table nSockFd (some (.library s.acquired))
    acquired := s.acquired + 1 },⟨nSockFd,s.acquired⟩)

/-- The destructor. -/
def destroySocket (s : State) (socket : Socket) : Except Halt State :=
  if 0 ≤ socket.m_nSockFd then
    match s.table socket.m_nSockFd with
    | some user => .ok { s with
        table := Function.update s.table socket.m_nSockFd none
        closes := Function.update s.closes user (s.closes user + 1) }
    | none => .error (.assertion "0 == nRet")
  else .ok s

def createTcp (s : State) (nSockFd : Int) : Except Halt (State × Socket) := do
  ensure .notEnabled (s.table nSockFd = none)
  ensure (.assertion "nSockFd >= 0") (0 ≤ nSockFd)
  .ok (s.acquire nSockFd)

/-- A new TcpStream, whose m_Socket is a copy of the argument. -/
def newStream (s : State) (rSocket : Socket) : State :=
  { s with streams := Function.update s.streams s.made (some rSocket), made := s.made + 1 }

/-- Both overloads, behind the Bind of the second: the local socket is destroyed at the end. -/
def finishConnect (s : State) (socket : Socket) (nConnect : Int) : Except Halt State :=
  (if 0 = nConnect then s.newStream socket else s).destroySocket socket

def connect (s : State) (nSockFd nConnect : Int) : Except Halt State := do
  let (s,socket) ← s.createTcp nSockFd
  s.finishConnect socket nConnect

def connectFrom (s : State) (nSockFd nBind nConnect : Int) : Except Halt State := do
  let (s,socket) ← s.createTcp nSockFd
  ensure (.fatal "Socket::BindAddress()") (nBind = 0)
  s.finishConnect socket nConnect

/-- The temporary Socket is destroyed at the end of the return statement's expression. -/
def accept (s : State) (nSockFd : Int) : Except Halt State := do
  ensure .notEnabled (s.table nSockFd = none)
  if 0 ≤ nSockFd then
    let (s,socket) := s.acquire nSockFd
    (s.newStream socket).destroySocket socket
  else .ok s

/-- The implicit destructor of a TcpStream destroys its member. -/
def destroy (s : State) (stream : Nat) : Except Halt State :=
  match s.streams stream with
  | some m_Socket => { s with streams := Function.update s.streams stream none }.destroySocket m_Socket
  | none => .error .notEnabled

end State

def step (s : State) : Label → Except Halt State
  | .connect nSockFd nConnect => s.connect nSockFd nConnect
  | .connectFrom nSockFd nBind nConnect => s.connectFrom nSockFd nBind nConnect
  | .accept nSockFd => s.accept nSockFd
  | .destroy stream => s.destroy stream
  | .openOther fd => do
    ensure .notEnabled (0 ≤ fd ∧ s.table fd = none)
    .ok { s with table := Function.update s.table fd (some .other) }
  | .closeOther fd => do
    ensure .notEnabled (s.table fd = some .other)
    .ok { s with table := Function.update s.table fd none }

def machine : Machine State Label Halt := ⟨fun s => s = initial,step⟩

/-- A TcpStream lives with the descriptor of that call of socket or accept. -/
def Owned (s : State) (acquisition : Nat) : Prop :=
  ∃ stream m_Socket, s.streams stream = some m_Socket ∧ m_Socket.acquisition = acquisition

/-- What ownership is for. -/
structure Sound (s : State) : Prop where
  live : ∀ stream m_Socket, s.streams stream = some m_Socket → s.table m_Socket.m_nSockFd = some (.library m_Socket.acquisition)
  once : ∀ a < s.acquired, (Owned s a → s.closes (.library a) = 0) ∧ (¬ Owned s a → s.closes (.library a) = 1)
  others : s.closes .other = 0
  asserts : ∀ a, step s a ≠ .error (.assertion "0 == nRet")

/-- The call returns a TcpStream, if the system calls before let it. -/
def Label.Gives : Label → Prop
  | .connect _ nConnect => nConnect = 0
  | .connectFrom _ _ nConnect => nConnect = 0
  | .accept nSockFd => 0 ≤ nSockFd
  | _ => False

/-- Nothing of the library's is in use, and all that it had it has closed once. -/
structure Closed (s : State) : Prop where
  streams : ∀ stream, s.streams stream = none
  table : ∀ fd user, s.table fd = some user → user = .other
  closed : ∀ a, s.closes (.library a) = if a < s.acquired then 1 else 0
  others : s.closes .other = 0

variable {s t : State} {a : Label} {nSockFd : Int}

/-! A descriptor that is obtained and closed at once. -/

/-- The new socket's destructor finds it in use. -/
theorem destroy_acquired (streams : Nat → Option Socket) (made : Nat) (hpos : 0 ≤ nSockFd) :
    State.destroySocket { (s.acquire nSockFd).1 with streams := streams, made := made } (s.acquire nSockFd).2 =
      .ok ⟨Function.update s.table nSockFd none,s.acquired + 1,
        Function.update s.closes (.library s.acquired) (s.closes (.library s.acquired) + 1),streams,made⟩ := by
  simp only [State.destroySocket,State.acquire,if_pos hpos,Function.update_self,Function.update_idem]

theorem finishConnect_acquired (hpos : 0 ≤ nSockFd) (nConnect : Int) :
    (s.acquire nSockFd).1.finishConnect (s.acquire nSockFd).2 nConnect =
      .ok ⟨Function.update s.table nSockFd none,s.acquired + 1,
        Function.update s.closes (.library s.acquired) (s.closes (.library s.acquired) + 1),
        if 0 = nConnect then Function.update s.streams s.made (some ⟨nSockFd,s.acquired⟩) else s.streams,
        if 0 = nConnect then s.made + 1 else s.made⟩ := by
  rw [State.finishConnect]
  split
  · exact destroy_acquired _ _ hpos
  · exact destroy_acquired _ _ hpos

/-- CreateTcp gets a descriptor, or neither the system nor the assertion lets it. -/
theorem createTcp_cases (s : State) (nSockFd : Int) :
    s.createTcp nSockFd = .error .notEnabled ∨ s.createTcp nSockFd = .error (.assertion "nSockFd >= 0") ∨
      s.table nSockFd = none ∧ 0 ≤ nSockFd ∧ s.createTcp nSockFd = .ok (s.acquire nSockFd) := by
  rw [State.createTcp]
  by_cases hfree : s.table nSockFd = none
  · by_cases hpos : 0 ≤ nSockFd
    · exact .inr (.inr ⟨hfree,hpos,by rw [ensure_of _ hfree,ensure_of _ hpos]; rfl⟩)
    · exact .inr (.inl (by rw [ensure_of _ hfree,ensure_not _ hpos]; rfl))
  · exact .inl (by rw [ensure_not _ hfree]; rfl)

/-- What a call leaves of its descriptor: it is closed, whether or not a TcpStream has its number. -/
structure Spent (s t : State) (nSockFd : Int) (given : Prop) : Prop where
  free : s.table nSockFd = none
  table : t.table = Function.update s.table nSockFd none
  acquired : t.acquired = s.acquired + 1
  closes : t.closes = Function.update s.closes (.library s.acquired) (s.closes (.library s.acquired) + 1)
  stream : given → t.streams s.made = some ⟨nSockFd,s.acquired⟩
  kept : ¬ given → t.streams = s.streams

theorem finishConnect_spent {nConnect : Int} (hfree : s.table nSockFd = none) (hpos : 0 ≤ nSockFd)
    (hs : (s.acquire nSockFd).1.finishConnect (s.acquire nSockFd).2 nConnect = .ok t) : Spent s t nSockFd (nConnect = 0) := by
  rw [finishConnect_acquired hpos] at hs
  cases hs
  refine ⟨hfree,rfl,rfl,rfl,?_,?_⟩
  · intro hgiven
    simp only [if_pos hgiven.symm,Function.update_self]
  · intro hnot
    simp only [if_neg (Ne.symm hnot)]

/-- All that a step can do. -/
inductive Move (s : State) : Label → State → Prop where
  | connect {t : State} (nSockFd nConnect : Int) (h : Spent s t nSockFd (nConnect = 0)) : Move s (.connect nSockFd nConnect) t
  | connectFrom {t : State} (nSockFd nConnect : Int) (h : Spent s t nSockFd (nConnect = 0)) :
      Move s (.connectFrom nSockFd 0 nConnect) t
  | accept {t : State} (nSockFd : Int) (h : Spent s t nSockFd (0 ≤ nSockFd)) : Move s (.accept nSockFd) t
  | acceptFails (nSockFd : Int) (hneg : ¬ 0 ≤ nSockFd) : Move s (.accept nSockFd) s
  | destroy {t : State} (stream : Nat) (m_Socket : Socket) (h : s.streams stream = some m_Socket)
      (ht : { s with streams := Function.update s.streams stream none }.destroySocket m_Socket = .ok t) : Move s (.destroy stream) t
  | openOther (fd : Int) : Move s (.openOther fd) { s with table := Function.update s.table fd (some .other) }
  | closeOther (fd : Int) : Move s (.closeOther fd) { s with table := Function.update s.table fd none }

theorem move_of_step (hs : step s a = .ok t) : Move s a t := by
  cases a with
  | connect nSockFd nConnect =>
    obtain ⟨⟨s₁,socket⟩,hcreate,hs⟩ := (bind_ok_iff _ _ _).mp hs
    rcases createTcp_cases s nSockFd with herr | herr | ⟨hfree,hpos,hok⟩
    · cases hcreate.symm.trans herr
    · cases hcreate.symm.trans herr
    · cases hcreate.symm.trans hok
      exact .connect nSockFd nConnect (finishConnect_spent hfree hpos hs)
  | connectFrom nSockFd nBind nConnect =>
    obtain ⟨⟨s₁,socket⟩,hcreate,hs⟩ := (bind_ok_iff _ _ _).mp hs
    obtain ⟨_,hbind,hs⟩ := (bind_ok_iff _ _ _).mp hs
    obtain rfl := (ensure_ok_iff _ _ _).mp hbind
    rcases createTcp_cases s nSockFd with herr | herr | ⟨hfree,hpos,hok⟩
    · cases hcreate.symm.trans herr
    · cases hcreate.symm.trans herr
    · cases hcreate.symm.trans hok
      exact .connectFrom nSockFd nConnect (finishConnect_spent hfree hpos hs)
  | accept nSockFd =>
    obtain ⟨_,hfree,hs⟩ := (bind_ok_iff _ _ _).mp hs
    have hfree := (ensure_ok_iff _ _ _).mp hfree
    by_cases hpos : 0 ≤ nSockFd
    · simp only [if_pos hpos] at hs
      have hspent := hs.symm.trans (destroy_acquired _ _ hpos)
      cases hspent
      exact .accept nSockFd ⟨hfree,rfl,rfl,rfl,fun _ => Function.update_self ..,fun hnot => absurd hpos hnot⟩
    · simp only [if_neg hpos] at hs
      cases hs
      exact .acceptFails nSockFd hpos
  | destroy stream =>
    change s.destroy stream = .ok t at hs
    rw [State.destroy] at hs
    split at hs
    · rename_i m_Socket hstream
      exact .destroy stream m_Socket hstream hs
    · cases hs
  | openOther fd =>
    obtain ⟨_,-,hs⟩ := (bind_ok_iff _ _ _).mp hs
    cases hs
    exact .openOther fd
  | closeOther fd =>
    obtain ⟨_,-,hs⟩ := (bind_ok_iff _ _ _).mp hs
    cases hs
    exact .closeOther fd

/-! Runs. -/

/-- A call that returns a TcpStream returns one whose descriptor is closed. -/
theorem Spent.not_sound {given : Prop} (h : Spent s t nSockFd given) (hgiven : given) : ¬ Sound t := by
  intro hsound
  have hlive := hsound.live s.made _ (h.stream hgiven)
  rw [h.table,Function.update_self] at hlive
  cases hlive

theorem Spent.closed {given : Prop} (h : Spent s t nSockFd given) (hgiven : ¬ given) (hs : Closed s) : Closed t := by
  refine ⟨?_,?_,?_,?_⟩
  · rw [h.kept hgiven]
    exact hs.streams
  · rw [h.table,Function.update_eq_self_iff.mpr h.free.symm]
    exact hs.table
  · intro b
    have hb := hs.closed b
    have hnew := hs.closed s.acquired
    rw [if_neg (lt_irrefl _)] at hnew
    rw [h.closes,h.acquired,Function.update_apply,hnew]
    by_cases heq : b = s.acquired
    · rw [if_pos (by rw [heq]),if_pos (by omega)]
    · rw [if_neg (by simpa using heq),hb]
      by_cases hlt : b < s.acquired
      · rw [if_pos hlt,if_pos (by omega)]
      · rw [if_neg hlt,if_neg (by omega)]
  · rw [h.closes,Function.update_of_ne (by simp)]
    exact hs.others

theorem gives_not_sound (hs : step s a = .ok t) (hgives : a.Gives) : ¬ Sound t := by
  cases move_of_step hs with
  | connect nSockFd nConnect h => exact h.not_sound hgives
  | connectFrom nSockFd nConnect h => exact h.not_sound hgives
  | accept nSockFd h => exact h.not_sound hgives
  | acceptFails nSockFd hneg => exact absurd hgives hneg
  | destroy stream m_Socket h ht => cases hgives
  | openOther fd => cases hgives
  | closeOther fd => cases hgives

theorem Closed.step (h : Closed s) (hs : step s a = .ok t) (hgives : ¬ a.Gives) : Closed t := by
  cases move_of_step hs with
  | connect nSockFd nConnect hspent => exact hspent.closed hgives h
  | connectFrom nSockFd nConnect hspent => exact hspent.closed hgives h
  | accept nSockFd hspent => exact hspent.closed hgives h
  | acceptFails nSockFd hneg => exact h
  | destroy stream m_Socket hstream ht => cases (h.streams stream).symm.trans hstream
  | openOther fd =>
    refine ⟨h.streams,?_,h.closed,h.others⟩
    intro fd' user huser
    simp only [Function.update_apply] at huser
    split at huser
    · exact (Option.some.inj huser).symm
    · exact h.table fd' user huser
  | closeOther fd =>
    refine ⟨h.streams,?_,h.closed,h.others⟩
    intro fd' user huser
    simp only [Function.update_apply] at huser
    split at huser
    · cases huser
    · exact h.table fd' user huser

/-- The assertion on close fails in no step from here. -/
theorem Closed.asserts (h : Closed s) (a : Label) : SocketOwnership.step s a ≠ .error (.assertion "0 == nRet") := by
  intro hs
  cases a with
  | connect nSockFd nConnect =>
    change s.connect nSockFd nConnect = _ at hs
    rcases createTcp_cases s nSockFd with herr | herr | ⟨-,hpos,hok⟩
    · rw [State.connect,herr] at hs
      cases hs
    · rw [State.connect,herr] at hs
      exact absurd (Except.error.inj hs) (by decide)
    · simp only [State.connect,hok,ok_bind,finishConnect_acquired hpos] at hs
      cases hs
  | connectFrom nSockFd nBind nConnect =>
    change s.connectFrom nSockFd nBind nConnect = _ at hs
    rcases createTcp_cases s nSockFd with herr | herr | ⟨-,hpos,hok⟩
    · rw [State.connectFrom,herr] at hs
      cases hs
    · rw [State.connectFrom,herr] at hs
      exact absurd (Except.error.inj hs) (by decide)
    · by_cases hbind : nBind = 0
      · simp only [State.connectFrom,hok,ok_bind,ensure_of _ hbind,finishConnect_acquired hpos] at hs
        cases hs
      · simp only [State.connectFrom,hok,ok_bind,ensure_not _ hbind] at hs
        cases hs
  | accept nSockFd =>
    change s.accept nSockFd = _ at hs
    by_cases hfree : s.table nSockFd = none
    · by_cases hpos : 0 ≤ nSockFd
      · have hdone : ((s.acquire nSockFd).1.newStream (s.acquire nSockFd).2).destroySocket (s.acquire nSockFd).2 =
            .error (.assertion "0 == nRet") := by
          simpa only [State.accept,ensure_of _ hfree,ok_bind,if_pos hpos] using hs
        cases (destroy_acquired _ _ hpos).symm.trans hdone
      · simp only [State.accept,ensure_of _ hfree,ok_bind,if_neg hpos] at hs
        cases hs
    · rw [State.accept,ensure_not _ hfree] at hs
      cases hs
  | destroy stream =>
    change s.destroy stream = _ at hs
    simp only [State.destroy,h.streams stream] at hs
    cases hs
  | openOther fd =>
    obtain hs | ⟨_,-,hs⟩ := (bind_error_iff _ _ _).mp hs
    · cases ((ensure_error_iff _ _ _).mp hs).2
    · cases hs
  | closeOther fd =>
    obtain hs | ⟨_,-,hs⟩ := (bind_error_iff _ _ _).mp hs
    · cases ((ensure_error_iff _ _ _).mp hs).2
    · cases hs

theorem Closed.sound (h : Closed s) : Sound s := by
  refine ⟨?_,?_,h.others,h.asserts⟩
  · intro stream m_Socket hstream
    cases (h.streams stream).symm.trans hstream
  · intro a ha
    have hclosed := h.closed a
    rw [if_pos ha] at hclosed
    refine ⟨?_,fun _ => hclosed⟩
    rintro ⟨stream,m_Socket,hstream,-⟩
    cases (h.streams stream).symm.trans hstream

theorem closed_initial : Closed initial :=
  ⟨fun _ => rfl,fun _ _ h => (by cases h),fun _ => rfl,rfl⟩

theorem run_sound_iff (h : Closed s) {labels : List Label} (hrun : machine.run s labels = .ok t) :
    machine.Always Sound s labels ↔ ∀ a ∈ labels, ¬ a.Gives := by
  induction labels generalizing s with
  | nil => exact iff_of_true h.sound fun a ha => absurd ha List.not_mem_nil
  | cons a labels ih =>
    obtain ⟨u,hu,hrun⟩ := (bind_ok_iff _ _ _).mp hrun
    rw [machine.always_cons hu,List.forall_mem_cons,and_iff_right h.sound]
    by_cases hgives : a.Gives
    · exact iff_of_false (fun hall => gives_not_sound hu hgives hall.start) fun hall => hall.1 hgives
    · rw [ih (h.step hu hgives) hrun,and_iff_right hgives]

/-- Over every sequence of Connect, Accept and destructions, whatever other code does with
descriptors: ownership is sound in every state exactly if no call returns a TcpStream. -/
theorem ownership_sound_iff {labels : List Label} (hrun : machine.run initial labels = .ok s) :
    machine.Always Sound initial labels ↔ ∀ a ∈ labels, ¬ a.Gives :=
  run_sound_iff closed_initial hrun

/-- Nobody listens, and nobody calls. -/
theorem ownership_sound_iff_refused :
    machine.Always Sound initial [.connect 3 (-1),.openOther 3,.connectFrom 4 0 (-1),.accept (-1),.closeOther 3] := by
  have hok : (machine.run initial [.connect 3 (-1),.openOther 3,.connectFrom 4 0 (-1),.accept (-1),.closeOther 3]).isOk = true := by
    decide
  obtain ⟨s,hrun⟩ := machine.exists_run hok
  refine (ownership_sound_iff hrun).mpr ?_
  simp [Label.Gives]

/-- A connection that was made: its descriptor is closed before Connect returns, and the TcpStream's
destructor fails the assertion, or closes what other code has opened since. -/
theorem connected_closed :
    (∃ s, machine.run initial [.connect 3 0] = .ok s ∧ s.streams 0 = some ⟨3,0⟩ ∧ s.table 3 = none ∧ ¬ Sound s ∧
      step s (.destroy 0) = .error (.assertion "0 == nRet")) ∧
    ∃ s, machine.run initial [.connect 3 0,.openOther 3,.destroy 0] = .ok s ∧ s.closes .other = 1 := by
  refine ⟨?_,?_⟩
  · obtain ⟨s,hrun,hv⟩ := @Machine.exists_run_eq _ _ _ _ machine initial [.connect 3 0]
      (fun s => (s.streams 0,s.table 3,(step s (.destroy 0)).isOk)) (some ⟨3,0⟩,none,false) (by decide)
    simp only [Prod.mk.injEq] at hv
    obtain ⟨hstream,hclosed,-⟩ := hv
    refine ⟨s,hrun,hstream,hclosed,?_,?_⟩
    · intro hsound
      have hlive := hsound.live 0 _ hstream
      cases hclosed.symm.trans hlive
    · change s.destroy 0 = _
      simp only [State.destroy,hstream,State.destroySocket,hclosed]
      rfl
  · exact @Machine.exists_run_eq _ _ _ _ machine initial [.connect 3 0,.openOther 3,.destroy 0] (fun s => s.closes .other) 1 (by decide)

end LinuxServer.Tcp.SocketOwnership
