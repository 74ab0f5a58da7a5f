import LinuxServer.Reactor.EPoller

/-! The poll-based poller: a vector of pollfds indexed by the channels, where a
negative descriptor is one that poll passes over. -/
namespace LinuxServer.Reactor.Poller
open LinuxServer.Lib
open EPoller (Channel)

structure PollFd where
  fd : Int
  events : BitVec 16
  revents : BitVec 16
  deriving DecidableEq,Repr

structure State (ι : Type) where
  channels : ι → Channel
  pollFds : List PollFd
  mpChannels : Int → Option ι
  /-- The list that the last call of Poll filled. -/
  activeChannels : List ι

variable {ι : Type} [DecidableEq ι]

def init : State ι := ⟨fun _ => ⟨Channel.noneEvent,0,-1⟩,[],fun _ => none,[]⟩

-- the channels are given with their descriptors, which they keep
variable (fd : ι → Int)

def setEvents (s : State ι) (c : ι) (nEvents : BitVec 32) : State ι :=
  { s with channels := Function.update s.channels c { s.channels c with nEvents := nEvents } }
def setREvents (s : State ι) (c : ι) (nEvent : BitVec 32) : State ι :=
  { s with channels := Function.update s.channels c { s.channels c with nREvents := nEvent } }
def setIndex (s : State ι) (c : ι) (nIndex : Int) : State ι :=
  { s with channels := Function.update s.channels c { s.channels c with nIndex := nIndex } }

/-- m_PollFds[nIndex], of an index that was checked. -/
def pollFdAt (s : State ι) (nIndex : Int) : PollFd := s.pollFds.getD nIndex.toNat ⟨0,0,0⟩

/-- A channel's first update takes it into the vector; later ones change its pollfd. -/
def updateChannel (c : ι) (s : State ι) : Except Halt (State ι) :=
  let nIndex := (s.channels c).nIndex
  let events := (s.channels c).nEvents.setWidth 16
  if nIndex < 0 then do
    ensure (.assertion "m_mpChannels.end() == m_mpChannels.find(pChannel->GetFd())") (s.mpChannels (fd c) = none)
    let pollFds := s.pollFds ++ [⟨fd c,events,0⟩]
    .ok { setIndex s c (pollFds.length - 1) with
      pollFds := pollFds, mpChannels := Function.update s.mpChannels (fd c) (some c) }
  else do
    ensure (.assertion "m_mpChannels.end() != m_mpChannels.find(pChannel->GetFd())") (s.mpChannels (fd c) ≠ none)
    ensure (.assertion "m_mpChannels[pChannel->GetFd()] == pChannel") (s.mpChannels (fd c) = some c)
    ensure (.assertion "0 <= nIndex && nIndex < static_cast<int>(m_PollFds.size())")
      (0 ≤ nIndex ∧ nIndex < s.pollFds.length)
    let pfd := pollFdAt s nIndex
    ensure (.assertion "pfd.fd == pChannel->GetFd() || -pChannel->GetFd() - 1 == pfd.fd")
      (pfd.fd = fd c ∨ -fd c - 1 = pfd.fd)
    let pfd' : PollFd := ⟨if (s.channels c).isNoneEvent then -fd c - 1 else pfd.fd,events,0⟩
    .ok { s with pollFds := s.pollFds.set nIndex.toNat pfd' }

/-- The pollfd at the channel's index. -/
def pollFd (s : State ι) (c : ι) : PollFd := pollFdAt s (s.channels c).nIndex

/-- What RemoveChannel asserts of the pollfd. -/
def Removable (s : State ι) (c : ι) : Prop :=
  (pollFd s c).fd = -fd c - 1 ∧ (pollFd s c).events.signExtend 32 = (s.channels c).nEvents

instance (s : State ι) (c : ι) : Decidable (Removable fd s c) := inferInstanceAs (Decidable (_ ∧ _))

/-- The last pollfd moves into the place that becomes free, with its channel's index. -/
def moveLast (nIndex : Int) (s : State ι) : Except Halt (State ι) :=
  let last := s.pollFds.getLastD ⟨0,0,0⟩
  let nChannelAtEnd := if last.fd < 0 then -last.fd - 1 else last.fd
  match s.mpChannels nChannelAtEnd with
  | some d =>
    let swapped := (s.pollFds.set nIndex.toNat last).set (s.pollFds.length - 1) (pollFdAt s nIndex)
    .ok { setIndex s d nIndex with pollFds := swapped.dropLast }
  | none => .error .outOfBounds

def removeChannel (c : ι) (s : State ι) : Except Halt (State ι) := do
  ensure (.assertion "m_mpChannels.find(pChannel->GetFd()) != m_mpChannels.end()") (s.mpChannels (fd c) ≠ none)
  ensure (.assertion "m_mpChannels[pChannel->GetFd()] == pChannel") (s.mpChannels (fd c) = some c)
  ensure (.assertion "pChannel->IsNoneEvent()") (s.channels c).isNoneEvent
  let nIndex := (s.channels c).nIndex
  ensure (.assertion "0 <= nIndex && nIndex < static_cast<int>(m_PollFds.size())")
    (0 ≤ nIndex ∧ nIndex < s.pollFds.length)
  ensure (.assertion "pfd.fd == -pChannel->GetFd() - 1 && pfd.events == pChannel->GetEvents()") (Removable fd s c)
  ensure (.assertion "1 == n") ((s.mpChannels (fd c)).toList.length = 1)
  let s₁ : State ι := { s with mpChannels := Function.update s.mpChannels (fd c) none }
  if nIndex = s₁.pollFds.length - 1 then .ok { s₁ with pollFds := s₁.pollFds.dropLast }
  else moveLast nIndex s₁

/-- Take the channels of the pollfds with events, until their number is used up. -/
def fillActiveChannels : Nat → List PollFd → State ι → Except Halt (State ι)
  | 0, _, s => .ok s
  | _+1, [], s => .ok s
  | n+1, pfd :: rest, s =>
    if 0 < pfd.revents.toInt then
      match s.mpChannels pfd.fd with
      | some c => do
        ensure (.assertion "pChannel->GetFd() == itor->fd") (fd c = pfd.fd)
        let s₁ := setREvents s c (pfd.revents.signExtend 32)
        fillActiveChannels n rest { s₁ with activeChannels := s₁.activeChannels ++ [c] }
      | none => .error (.assertion "m_mpChannels.end() != channelItor")
    else fillActiveChannels (n + 1) rest s

/-- Poll, with the events that the system call stored or its error, which is only
logged. The loop has cleared the list of active channels. -/
def poll (answer : Except Int (List (BitVec 16))) (s : State ι) : Except Halt (State ι) :=
  let s₀ := { s with activeChannels := [] }
  match answer with
  | .error _ => .ok s₀
  | .ok revents =>
    let pollFds := List.zipWith (fun pfd r => { pfd with revents := r }) s₀.pollFds revents
    fillActiveChannels fd (revents.countP (· ≠ 0)) pollFds { s₀ with pollFds := pollFds }

inductive Call (ι : Type) where
  | enableReading (c : ι)
  | enableWriting (c : ι)
  | disableWriting (c : ι)
  | disableAll (c : ι)
  | removeChannel (c : ι)
  | poll (answer : Except Int (List (BitVec 16)))

def step (s : State ι) : Call ι → Except Halt (State ι)
  | .enableReading c => updateChannel fd c (setEvents s c ((s.channels c).nEvents ||| Channel.readEvent))
  | .enableWriting c => updateChannel fd c (setEvents s c ((s.channels c).nEvents ||| Channel.writeEvent))
  | .disableWriting c => updateChannel fd c (setEvents s c ((s.channels c).nEvents &&& ~~~Channel.writeEvent))
  | .disableAll c => updateChannel fd c (setEvents s c Channel.noneEvent)
  | .removeChannel c => removeChannel fd c s
  | .poll answer => poll fd answer s

def machine : Machine (State ι) (Call ι) Halt := ⟨fun s => s = init,step fd⟩

/-- The channel is in the map. -/
def Registered (s : State ι) (c : ι) : Prop := s.mpChannels (fd c) = some c

/-- A channel that was removed keeps its index and is not used again; a channel is
removed with what RemoveChannel asserts; poll stores no events under a negative descriptor. -/
def Allowed (s : State ι) : Call ι → Prop
  | .enableReading c | .enableWriting c | .disableWriting c | .disableAll c =>
    (s.channels c).nIndex < 0 ∨ Registered fd s c
  | .removeChannel c => Registered fd s c ∧ (s.channels c).isNoneEvent ∧ Removable fd s c
  | .poll (.ok revents) => revents.length = s.pollFds.length ∧
    ∀ p ∈ s.pollFds.zip revents, p.1.fd < 0 → p.2 = 0
  | .poll (.error _) => True

/-- What the pollfd of a registered channel has to say. -/
structure Polled (s : State ι) (c : ι) : Prop where
  watched : ¬ (s.channels c).isNoneEvent →
    (pollFd s c).fd = fd c ∧ (pollFd s c).events.signExtend 32 = (s.channels c).nEvents
  ignored : (s.channels c).isNoneEvent → (pollFd s c).fd < 0
  removable : (s.channels c).isNoneEvent → Removable fd s c

/-- The vector polls exactly the interest of the registered channels. -/
def Exact (s : State ι) : Prop := ∀ c, Registered fd s c → Polled fd s c

/-- A call enables a new channel or one that has interest, or disables a registered one. -/
def Steady (s : State ι) : Call ι → Prop
  | .enableReading c | .enableWriting c => (s.channels c).nIndex < 0 ∨ ¬ (s.channels c).isNoneEvent
  | .disableWriting c | .disableAll c => 0 ≤ (s.channels c).nIndex
  | _ => True

instance (s : State ι) (c : ι) : Decidable (Registered fd s c) := inferInstanceAs (Decidable (_ = _))
instance (s : State ι) (call : Call ι) : Decidable (Allowed fd s call) := by
  cases call with
  | poll answer => cases answer <;> (dsimp only [Allowed]; infer_instance)
  | _ => dsimp only [Allowed]; infer_instance
instance (s : State ι) (call : Call ι) : Decidable (Steady s call) := by
  cases call <;> (dsimp only [Steady]; infer_instance)

variable {fd} {s t : State ι} {c : ι}

/-! The pollfds belong to the registered channels, one each. -/

variable (fd) in
structure Inv (s : State ι) : Prop where
  listed : ∀ n c, s.mpChannels n = some c → n = fd c
  index : ∀ c, Registered fd s c → 0 ≤ (s.channels c).nIndex ∧ (s.channels c).nIndex < s.pollFds.length
  fd_or : ∀ c, Registered fd s c → (pollFd s c).fd = fd c ∨ (pollFd s c).fd = -fd c - 1
  events : ∀ c, Registered fd s c → (pollFd s c).events.signExtend 32 = (s.channels c).nEvents
  owner : ∀ i : Nat, i < s.pollFds.length → ∃ c, Registered fd s c ∧ (s.channels c).nIndex = i
  mask : ∀ c, (s.channels c).nEvents.toNat < 8
  /-- A channel is new until its first update. -/
  fresh : ∀ c, (s.channels c).nIndex < 0 → (s.channels c).isNoneEvent

/-- The other channels' masks and pollfds are what they were. -/
structure Frame (fd : ι → Int) (c : ι) (s t : State ι) : Prop where
  registered : ∀ d, d ≠ c → (Registered fd t d ↔ Registered fd s d)
  mask : ∀ d, d ≠ c → (t.channels d).nEvents = (s.channels d).nEvents
  pollFd : ∀ d, d ≠ c → Registered fd s d → pollFd t d = pollFd s d

theorem signExtend_setWidth {v : BitVec 32} (h : v.toNat < 8) : (v.setWidth 16).signExtend 32 = v := by
  have all : ∀ n < 8, ((BitVec.ofNat 32 n).setWidth 16).signExtend 32 = BitVec.ofNat 32 n := by decide
  have hv := all v.toNat h
  rwa [BitVec.ofNat_toNat,BitVec.setWidth_eq] at hv

theorem setEvents_self (m : BitVec 32) : (setEvents s c m).channels c = { s.channels c with nEvents := m } :=
  Function.update_self ..
theorem setEvents_of_ne {d : ι} (h : d ≠ c) (m : BitVec 32) : (setEvents s c m).channels d = s.channels d :=
  Function.update_of_ne h ..

omit [DecidableEq ι] in
/-- Two registered channels do not share a pollfd. -/
theorem Inv.index_inj (hpos : ∀ c, 0 ≤ fd c) (hfd : Function.Injective fd) (h : Inv fd s) {c d : ι}
    (hc : Registered fd s c) (hd : Registered fd s d) (hi : (s.channels c).nIndex = (s.channels d).nIndex) : c = d := by
  have hsame : pollFd s c = pollFd s d := by rw [pollFd,pollFd,hi]
  have h₁ := h.fd_or c hc
  have h₂ := h.fd_or d hd
  rw [hsame] at h₁
  have hp := hpos c
  have hp' := hpos d
  apply hfd
  omega

omit [DecidableEq ι] in
/-- A new channel's descriptor is not in the map. -/
theorem Inv.absent (hfd : Function.Injective fd) (h : Inv fd s) (hc : (s.channels c).nIndex < 0) :
    s.mpChannels (fd c) = none := by
  by_contra hmap
  obtain ⟨d,hd⟩ := Option.ne_none_iff_exists'.mp hmap
  obtain rfl := hfd (h.listed _ _ hd)
  have := (h.index c hd).1
  omega

omit [DecidableEq ι] in
/-- Of the other channels a call has to say only their indices; of its own channel everything. -/
theorem Inv.of_frame (h : Inv fd s) (hf : Frame fd c s t) (hlisted : ∀ n d, t.mpChannels n = some d → n = fd d)
    (hindex : ∀ d, Registered fd t d → 0 ≤ (t.channels d).nIndex ∧ (t.channels d).nIndex < t.pollFds.length)
    (howner : ∀ i : Nat, i < t.pollFds.length → ∃ d, Registered fd t d ∧ (t.channels d).nIndex = i)
    (hnew : ∀ d, d ≠ c → (t.channels d).nIndex < 0 → (s.channels d).nIndex < 0)
    (hor : Registered fd t c → (pollFd t c).fd = fd c ∨ (pollFd t c).fd = -fd c - 1)
    (hevents : Registered fd t c → (pollFd t c).events.signExtend 32 = (t.channels c).nEvents)
    (hmask : (t.channels c).nEvents.toNat < 8)
    (hfresh : (t.channels c).nIndex < 0 → (t.channels c).isNoneEvent) : Inv fd t := by
  constructor
  · exact hlisted
  · exact hindex
  · intro d hr
    by_cases hd : d = c
    · rw [hd] at hr ⊢
      exact hor hr
    · have hs := (hf.registered d hd).mp hr
      rw [hf.pollFd d hd hs]
      exact h.fd_or d hs
  · intro d hr
    by_cases hd : d = c
    · rw [hd] at hr ⊢
      exact hevents hr
    · have hs := (hf.registered d hd).mp hr
      rw [hf.pollFd d hd hs,hf.mask d hd]
      exact h.events d hs
  · exact howner
  · intro d
    by_cases hd : d = c
    · rw [hd]
      exact hmask
    · rw [hf.mask d hd]
      exact h.mask d
  · intro d hneg
    by_cases hd : d = c
    · rw [hd] at hneg ⊢
      exact hfresh hneg
    · rw [Channel.isNoneEvent,hf.mask d hd]
      exact h.fresh d (hnew d hd hneg)

/-- Registering a new channel appends its pollfd, whatever its mask. -/
theorem register_ok (hfd : Function.Injective fd) (h : Inv fd s) (hc : (s.channels c).nIndex < 0) {m : BitVec 32}
    (hm : m.toNat < 8) :
    ∃ t, updateChannel fd c (setEvents s c m) = .ok t ∧ Inv fd t ∧ Frame fd c s t ∧ Registered fd t c ∧
      (t.channels c).nEvents = m ∧ (pollFd t c).fd = fd c := by
  have habsent := h.absent hfd hc
  have hidx : ((setEvents s c m).channels c).nIndex < 0 := by rwa [setEvents_self]
  let t : State ι := { setIndex (setEvents s c m) c s.pollFds.length with
    pollFds := s.pollFds ++ [⟨fd c,m.setWidth 16,0⟩], mpChannels := Function.update s.mpChannels (fd c) (some c) }
  have hself : t.channels c = { s.channels c with nEvents := m, nIndex := s.pollFds.length } := by
    change Function.update _ c _ c = _
    rw [Function.update_self,setEvents_self]
  have hother {d : ι} (hd : d ≠ c) : t.channels d = s.channels d := by
    change Function.update _ c _ d = _
    rw [Function.update_of_ne hd,setEvents_of_ne hd]
  have hregc : Registered fd t c := Function.update_self ..
  have hreg {d : ι} (hd : d ≠ c) : Registered fd t d ↔ Registered fd s d := by
    rw [Registered,Registered]
    change Function.update s.mpChannels (fd c) (some c) (fd d) = _ ↔ _
    rw [Function.update_of_ne (hfd.ne hd)]
  have hlen : t.pollFds.length = s.pollFds.length + 1 := List.length_append
  have hpollc : pollFd t c = ⟨fd c,m.setWidth 16,0⟩ := by
    rw [pollFd,pollFdAt,hself]
    change (s.pollFds ++ [_]).getD s.pollFds.length _ = _
    simp
  have hpoll {d : ι} (hd : d ≠ c) (hr : Registered fd s d) : pollFd t d = pollFd s d := by
    obtain ⟨h0,hlt⟩ := h.index d hr
    rw [pollFd,pollFdAt,hother hd]
    change (s.pollFds ++ [_]).getD _ _ = _
    rw [List.getD_append _ _ _ _ (by omega)]
    rfl
  have hframe : Frame fd c s t := ⟨fun d hd => hreg hd,fun d hd => by rw [hother hd],fun d hd hr => hpoll hd hr⟩
  have hrun : updateChannel fd c (setEvents s c m) = .ok t := by
    have hmask : ((setEvents s c m).channels c).nEvents = m := by rw [setEvents_self]
    have habsent' : (setEvents s c m).mpChannels (fd c) = none := habsent
    rw [updateChannel,if_pos hidx,ensure_of _ habsent',ok_bind,hmask]
    simp [t,setIndex,setEvents]
  refine ⟨t,hrun,h.of_frame hframe ?_ ?_ ?_ ?_ ?_ ?_ ?_ ?_,hframe,hregc,by rw [hself],by rw [hpollc]⟩
  · intro n d hd
    change Function.update s.mpChannels (fd c) (some c) n = some d at hd
    rw [Function.update_apply] at hd
    split at hd
    · cases hd
      assumption
    · exact h.listed n d hd
  · intro d hr
    by_cases hd : d = c
    · rw [hd,hself,hlen]
      exact ⟨by simp,by simp⟩
    · obtain ⟨h0,hlt⟩ := h.index d ((hreg hd).mp hr)
      rw [hother hd,hlen]
      exact ⟨h0,by omega⟩
  · intro i hi
    rw [hlen] at hi
    by_cases hlast : i = s.pollFds.length
    · exact ⟨c,hregc,by rw [hself,hlast]⟩
    · obtain ⟨d,hr,hd⟩ := h.owner i (by omega)
      have hne : d ≠ c := by
        rintro rfl
        rw [Registered,habsent] at hr
        cases hr
      exact ⟨d,(hreg hne).mpr hr,by rw [hother hne,hd]⟩
  · intro d hd hneg
    rwa [hother hd] at hneg
  · intro _
    rw [hpollc]
    exact .inl rfl
  · intro _
    rw [hpollc,hself]
    exact signExtend_setWidth hm
  · rw [hself]
    exact hm
  · rw [hself]
    intro hneg
    exact absurd hneg (by simp)

variable (fd) in
/-- The pollfd that an update of a registered channel leaves. -/
def changed (s : State ι) (c : ι) : PollFd :=
  ⟨if (s.channels c).isNoneEvent then -fd c - 1 else (pollFd s c).fd,(s.channels c).nEvents.setWidth 16,0⟩

theorem updateChannel_modify (h0 : 0 ≤ (s.channels c).nIndex) (hlt : (s.channels c).nIndex < s.pollFds.length)
    (hmap : s.mpChannels (fd c) = some c) (hor : (pollFd s c).fd = fd c ∨ (pollFd s c).fd = -fd c - 1) :
    updateChannel fd c s = .ok { s with pollFds := s.pollFds.set (s.channels c).nIndex.toNat (changed fd s c) } := by
  have hpresent : s.mpChannels (fd c) ≠ none := by
    rw [hmap]
    exact Option.some_ne_none c
  have hassert : (pollFdAt s (s.channels c).nIndex).fd = fd c ∨ -fd c - 1 = (pollFdAt s (s.channels c).nIndex).fd :=
    hor.imp_right Eq.symm
  simp only [updateChannel,if_neg (not_lt.mpr h0),ensure_of _ hpresent,ensure_of _ hmap,
    ensure_of _ (And.intro h0 hlt),ensure_of _ hassert,ok_bind]
  rfl

/-- A later update sets the mask; the descriptor is encoded when the mask is empty and
kept otherwise, encoded or not. -/
theorem modify_ok (hpos : ∀ c, 0 ≤ fd c) (hfd : Function.Injective fd) (h : Inv fd s) (hc : Registered fd s c)
    {m : BitVec 32} (hm : m.toNat < 8) :
    ∃ t, updateChannel fd c (setEvents s c m) = .ok t ∧ Inv fd t ∧ Frame fd c s t ∧ Registered fd t c ∧
      (t.channels c).nEvents = m ∧
      (pollFd t c).fd = if m = Channel.noneEvent then -fd c - 1 else (pollFd s c).fd := by
  obtain ⟨h0,hlt⟩ := h.index c hc
  have hor := h.fd_or c hc
  let pfd : PollFd := ⟨if m = Channel.noneEvent then -fd c - 1 else (pollFd s c).fd,m.setWidth 16,0⟩
  let t : State ι := { setEvents s c m with pollFds := s.pollFds.set (s.channels c).nIndex.toNat pfd }
  have hself : t.channels c = { s.channels c with nEvents := m } := setEvents_self m
  have hother {d : ι} (hd : d ≠ c) : t.channels d = s.channels d := setEvents_of_ne hd m
  have hidx (d : ι) : (t.channels d).nIndex = (s.channels d).nIndex := by
    by_cases hd : d = c
    · rw [hd,hself]
    · rw [hother hd]
  have hlen : t.pollFds.length = s.pollFds.length := List.length_set
  have hreg (d : ι) : Registered fd t d ↔ Registered fd s d := Iff.rfl
  have hpollc : pollFd t c = pfd := by
    rw [pollFd,pollFdAt,hidx]
    change (s.pollFds.set _ pfd).getD _ _ = _
    rw [List.getD_eq_getElem?_getD,List.getElem?_set_self (by omega)]
    rfl
  have hpoll {d : ι} (hd : d ≠ c) (hr : Registered fd s d) : pollFd t d = pollFd s d := by
    have hne : (s.channels c).nIndex.toNat ≠ (s.channels d).nIndex.toNat := by
      intro he
      have h0' := (h.index d hr).1
      exact hd (h.index_inj hpos hfd hr hc (by omega))
    rw [pollFd,pollFdAt,hidx,pollFd,pollFdAt]
    change (s.pollFds.set _ pfd).getD _ _ = _
    rw [List.getD_eq_getElem?_getD,List.getElem?_set_ne hne,List.getD_eq_getElem?_getD]
  have hframe : Frame fd c s t := ⟨fun d _ => hreg d,fun d hd => by rw [hother hd],fun d hd hr => hpoll hd hr⟩
  have hrun : updateChannel fd c (setEvents s c m) = .ok t := by
    have hold : pollFd (setEvents s c m) c = pollFd s c := by
      rw [pollFd,setEvents_self]
      rfl
    have hchanged := @updateChannel_modify ι _ fd (setEvents s c m) c (by rwa [setEvents_self])
      (by rwa [setEvents_self]) hc (by rwa [hold])
    rw [changed,hold,setEvents_self] at hchanged
    exact hchanged
  refine ⟨t,hrun,h.of_frame hframe h.listed ?_ ?_ ?_ ?_ ?_ ?_ ?_,hframe,hc,by rw [hself],by rw [hpollc]⟩
  · intro d hr
    rw [hidx,hlen]
    exact h.index d hr
  · intro i hi
    rw [hlen] at hi
    obtain ⟨d,hr,hd⟩ := h.owner i hi
    exact ⟨d,(hreg d).mpr hr,by rw [hidx,hd]⟩
  · intro d _ hneg
    rwa [hidx] at hneg
  · intro _
    rw [hpollc]
    change (if _ then _ else _) = _ ∨ (if _ then _ else _) = _
    split
    · exact .inr rfl
    · exact hor
  · intro _
    rw [hpollc,hself]
    exact signExtend_setWidth hm
  · rw [hself]
    exact hm
  · rw [hidx]
    intro hneg
    exact absurd h0 (not_le.mpr hneg)

omit [DecidableEq ι] in
/-- The pollfds stay each with their channel when one is taken out of the vector. -/
theorem removed (hfd : Function.Injective fd) (h : Inv fd s)
    (hmap : t.mpChannels = Function.update s.mpChannels (fd c) none)
    (hmask : ∀ d, (t.channels d).nEvents = (s.channels d).nEvents)
    (hnew : ∀ d, (t.channels d).nIndex < 0 → (s.channels d).nIndex < 0)
    (hpoll : ∀ d, d ≠ c → Registered fd s d → 0 ≤ (t.channels d).nIndex ∧ (t.channels d).nIndex < t.pollFds.length ∧
      pollFd t d = pollFd s d)
    (howner : ∀ i : Nat, i < t.pollFds.length → ∃ d, d ≠ c ∧ Registered fd s d ∧ (t.channels d).nIndex = i) :
    Inv fd t ∧ Frame fd c s t ∧ ¬ Registered fd t c := by
  have hout : ¬ Registered fd t c := by
    rw [Registered,hmap,Function.update_self]
    exact (Option.some_ne_none c).symm
  have hreg {d : ι} (hd : d ≠ c) : Registered fd t d ↔ Registered fd s d := by
    rw [Registered,hmap,Function.update_of_ne (hfd.ne hd)]
    rfl
  have hne {d : ι} (hr : Registered fd t d) : d ≠ c := by
    rintro rfl
    exact hout hr
  have hframe : Frame fd c s t := ⟨fun d hd => hreg hd,fun d _ => hmask d,fun d hd hr => (hpoll d hd hr).2.2⟩
  refine ⟨h.of_frame hframe ?_ ?_ ?_ ?_ ?_ ?_ ?_ ?_,hframe,hout⟩
  · intro n d hd
    rw [hmap,Function.update_apply] at hd
    split at hd
    · cases hd
    · exact h.listed n d hd
  · intro d hr
    obtain ⟨h0,hlt,-⟩ := hpoll d (hne hr) ((hreg (hne hr)).mp hr)
    exact ⟨h0,hlt⟩
  · intro i hi
    obtain ⟨d,hd,hr,hdi⟩ := howner i hi
    exact ⟨d,(hreg hd).mpr hr,hdi⟩
  · exact fun d _ => hnew d
  · exact fun hr => absurd hr hout
  · exact fun hr => absurd hr hout
  · rw [hmask]
    exact h.mask c
  · intro hneg
    rw [Channel.isNoneEvent,hmask]
    exact h.fresh c (hnew c hneg)

omit [DecidableEq ι] in
/-- The channel of the last pollfd, found through its descriptor, encoded or not. -/
theorem Inv.last (hpos : ∀ c, 0 ≤ fd c) (h : Inv fd s) (hn : 0 < s.pollFds.length) :
    ∃ d, Registered fd s d ∧ (s.channels d).nIndex = (s.pollFds.length - 1 : Nat) ∧
      s.pollFds.getLastD ⟨0,0,0⟩ = pollFd s d ∧
      (if (pollFd s d).fd < 0 then -(pollFd s d).fd - 1 else (pollFd s d).fd) = fd d := by
  obtain ⟨d,hr,hd⟩ := h.owner (s.pollFds.length - 1) (by omega)
  refine ⟨d,hr,hd,?_,?_⟩
  · rw [pollFd,pollFdAt,hd,List.getLastD_eq_getLast?,List.getLast?_eq_getElem?,List.getD_eq_getElem?_getD]
    rfl
  · have hp := hpos d
    rcases h.fd_or d hr with hfd | hfd
    · rw [if_neg (by omega),hfd]
    · rw [if_pos (by omega),hfd]
      omega

/-- The state with the channel out of the map, its pollfd still there. -/
def unmapped (fd : ι → Int) (c : ι) (s : State ι) : State ι :=
  { s with mpChannels := Function.update s.mpChannels (fd c) none }

/-- The state in which the last pollfd, that of c, is gone. -/
def dropped (fd : ι → Int) (c : ι) (s : State ι) : State ι := { unmapped fd c s with pollFds := s.pollFds.dropLast }

/-- The state in which the channel d of the last pollfd has the place of c. -/
def moved (fd : ι → Int) (c d : ι) (s : State ι) : State ι :=
  { setIndex (unmapped fd c s) d (s.channels c).nIndex with
    pollFds := (s.pollFds.set (s.channels c).nIndex.toNat (pollFd s d)).dropLast }

theorem removeChannel_checked (h : Inv fd s) (hc : Registered fd s c) (hnone : (s.channels c).isNoneEvent)
    (hrem : Removable fd s c) :
    removeChannel fd c s = if (s.channels c).nIndex = s.pollFds.length - 1
      then .ok (dropped fd c s)
      else moveLast (s.channels c).nIndex (unmapped fd c s) := by
  have hmap : s.mpChannels (fd c) = some c := hc
  have hpresent : s.mpChannels (fd c) ≠ none := by
    rw [hmap]
    exact Option.some_ne_none c
  have hone : (s.mpChannels (fd c)).toList.length = 1 := by
    rw [hmap]
    rfl
  simp only [removeChannel,ensure_of _ hpresent,ensure_of _ hmap,ensure_of _ hnone,
    ensure_of _ (h.index c hc),ensure_of _ hrem,ensure_of _ hone,ok_bind]
  rfl

omit [DecidableEq ι] in
/-- The channel's pollfd is the last one. -/
theorem dropped_ok (hpos : ∀ c, 0 ≤ fd c) (hfd : Function.Injective fd) (h : Inv fd s) (hc : Registered fd s c)
    (hlast : (s.channels c).nIndex = s.pollFds.length - 1) :
    Inv fd (dropped fd c s) ∧ Frame fd c s (dropped fd c s) ∧ ¬ Registered fd (dropped fd c s) c := by
  have hfront {j : Nat} (hj : j < s.pollFds.length - 1) : s.pollFds.dropLast.getD j ⟨0,0,0⟩ = s.pollFds.getD j ⟨0,0,0⟩ := by
    rw [List.getD_eq_getElem?_getD,List.getElem?_dropLast,if_pos hj,List.getD_eq_getElem?_getD]
  refine removed hfd h rfl (fun _ => rfl) (fun _ => id) ?_ ?_
  · intro d hd hr
    have hi := h.index d hr
    have hne : (s.channels d).nIndex ≠ (s.channels c).nIndex := fun he => hd (h.index_inj hpos hfd hr hc he)
    have hb : (s.channels d).nIndex.toNat < s.pollFds.length - 1 := by omega
    refine ⟨hi.1,?_,hfront hb⟩
    change (s.channels d).nIndex < (s.pollFds.dropLast.length : Int)
    rw [List.length_dropLast]
    omega
  · intro i hi
    change i < s.pollFds.dropLast.length at hi
    rw [List.length_dropLast] at hi
    obtain ⟨d,hr,hd⟩ := h.owner i (by omega)
    refine ⟨d,?_,hr,hd⟩
    rintro rfl
    omega

theorem dropLast_set_last (l : List PollFd) (x : PollFd) : (l.set (l.length - 1) x).dropLast = l.dropLast := by
  rw [List.dropLast_eq_take,List.dropLast_eq_take,List.length_set,List.take_set,List.set_eq_of_length_le]
  rw [List.length_take]
  omega

/-- The channel at the end is the one found in the map, as long as it is not the removed one. -/
theorem moveLast_finds {d : ι} (hfd : Function.Injective fd) (hr : Registered fd s d) (hne : d ≠ c)
    (hget : s.pollFds.getLastD ⟨0,0,0⟩ = pollFd s d)
    (hdecode : (if (pollFd s d).fd < 0 then -(pollFd s d).fd - 1 else (pollFd s d).fd) = fd d) :
    moveLast (s.channels c).nIndex (unmapped fd c s) = .ok (moved fd c d s) := by
  have hmap : (unmapped fd c s).mpChannels (fd d) = some d := by
    change Function.update s.mpChannels (fd c) none (fd d) = _
    rw [Function.update_of_ne (hfd.ne hne)]
    exact hr
  have hlast : (unmapped fd c s).pollFds.getLastD ⟨0,0,0⟩ = pollFd s d := hget
  have hswap := dropLast_set_last (s.pollFds.set (s.channels c).nIndex.toNat (pollFd s d))
    (pollFdAt (unmapped fd c s) (s.channels c).nIndex)
  rw [List.length_set] at hswap
  simp only [moveLast,hlast,hdecode,hmap]
  change Except.ok _ = _
  exact congrArg (fun l => Except.ok { setIndex (unmapped fd c s) d (s.channels c).nIndex with pollFds := l }) hswap

theorem moved_self (d : ι) : (moved fd c d s).channels d = { s.channels d with nIndex := (s.channels c).nIndex } :=
  Function.update_self ..
theorem moved_of_ne {d e : ι} (h : e ≠ d) : (moved fd c d s).channels e = s.channels e := Function.update_of_ne h ..
theorem moved_length (d : ι) : (moved fd c d s).pollFds.length = s.pollFds.length - 1 := by
  change (List.dropLast _).length = _
  rw [List.length_dropLast,List.length_set]
theorem moved_getD (d : ι) {j : Nat} (hj : j < s.pollFds.length - 1) : (moved fd c d s).pollFds.getD j ⟨0,0,0⟩ =
    if (s.channels c).nIndex.toNat = j then pollFd s d else s.pollFds.getD j ⟨0,0,0⟩ := by
  change (List.dropLast _).getD j _ = _
  rw [List.getD_eq_getElem?_getD,List.getElem?_dropLast,List.length_set,if_pos hj,List.getElem?_set]
  split
  · rw [if_pos (by omega)]
    rfl
  · rw [List.getD_eq_getElem?_getD]

/-- The last pollfd moves to the free place, and its channel gets the index. -/
theorem moved_ok (hpos : ∀ c, 0 ≤ fd c) (hfd : Function.Injective fd) (h : Inv fd s) (hc : Registered fd s c)
    {d₀ : ι} (hr₀ : Registered fd s d₀) (hd₀ : (s.channels d₀).nIndex = (s.pollFds.length - 1 : Nat)) (hne₀ : d₀ ≠ c) :
    Inv fd (moved fd c d₀ s) ∧ Frame fd c s (moved fd c d₀ s) ∧ ¬ Registered fd (moved fd c d₀ s) c := by
  obtain ⟨h0,hlt⟩ := h.index c hc
  have hidx {d e : ι} (hd : d ≠ e) (hr : Registered fd s d) (he : Registered fd s e) :
      (s.channels d).nIndex ≠ (s.channels e).nIndex := fun heq => hd (h.index_inj hpos hfd hr he heq)
  have hfree := hidx hne₀ hr₀ hc
  refine removed hfd h rfl ?_ ?_ ?_ ?_
  · intro d
    by_cases hd : d = d₀
    · rw [hd,moved_self]
    · rw [moved_of_ne hd]
  · intro d hneg
    by_cases hd : d = d₀
    · rw [hd,moved_self] at hneg
      exact absurd h0 (not_le.mpr hneg)
    · rwa [moved_of_ne hd] at hneg
  · intro d hd hr
    by_cases hd' : d = d₀
    · rw [hd',moved_self,moved_length]
      refine ⟨h0,by change (s.channels c).nIndex < _; omega,?_⟩
      rw [pollFd,pollFdAt,moved_self]
      exact (moved_getD _ (by change (s.channels c).nIndex.toNat < _; omega)).trans (if_pos rfl)
    · have hi := h.index d hr
      have hne := hidx hd hr hc
      have hne' := hidx hd' hr hr₀
      rw [moved_of_ne hd',moved_length]
      refine ⟨hi.1,by omega,?_⟩
      rw [pollFd,pollFdAt,moved_of_ne hd']
      exact (moved_getD _ (by omega)).trans (if_neg (by omega))
  · intro i hi
    rw [moved_length] at hi
    by_cases hic : (s.channels c).nIndex = i
    · exact ⟨d₀,hne₀,hr₀,by rw [moved_self]; exact hic⟩
    · obtain ⟨d,hr,hd⟩ := h.owner i (by omega)
      have hne : d ≠ d₀ := by
        rintro rfl
        omega
      refine ⟨d,?_,hr,by rw [moved_of_ne hne]; exact hd⟩
      rintro rfl
      exact hic hd

theorem removeChannel_ok (hpos : ∀ c, 0 ≤ fd c) (hfd : Function.Injective fd) (h : Inv fd s) (hc : Registered fd s c)
    (hnone : (s.channels c).isNoneEvent) (hrem : Removable fd s c) :
    ∃ t, removeChannel fd c s = .ok t ∧ Inv fd t ∧ Frame fd c s t ∧ ¬ Registered fd t c := by
  have hrun := removeChannel_checked h hc hnone hrem
  by_cases hlast : (s.channels c).nIndex = s.pollFds.length - 1
  · rw [if_pos hlast] at hrun
    exact ⟨_,hrun,dropped_ok hpos hfd h hc hlast⟩
  · rw [if_neg hlast] at hrun
    have hlt := (h.index c hc).2
    have h0 := (h.index c hc).1
    obtain ⟨d,hr,hd,hget,hdecode⟩ := h.last hpos (by omega)
    have hne : d ≠ c := by
      rintro rfl
      omega
    exact ⟨_,hrun.trans (moveLast_finds hfd hr hne hget hdecode),moved_ok hpos hfd h hc hr hd hne⟩

/-! Polls in between change what the invariant does not speak of. -/

/-- The map, the masks, the indices and the pollfds up to their reported events. -/
structure Same (s t : State ι) : Prop where
  mpChannels : t.mpChannels = s.mpChannels
  mask : ∀ d, (t.channels d).nEvents = (s.channels d).nEvents
  index : ∀ d, (t.channels d).nIndex = (s.channels d).nIndex
  length : t.pollFds.length = s.pollFds.length
  pollFd : ∀ d, (pollFd t d).fd = (pollFd s d).fd ∧ (pollFd t d).events = (pollFd s d).events

omit [DecidableEq ι] in
theorem Same.inv (h : Same s t) (hs : Inv fd s) : Inv fd t := by
  have hreg (d : ι) : Registered fd t d ↔ Registered fd s d := by rw [Registered,h.mpChannels,Registered]
  constructor
  · rw [h.mpChannels]
    exact hs.listed
  · intro d hr
    rw [h.index,h.length]
    exact hs.index d ((hreg d).mp hr)
  · intro d hr
    rw [(h.pollFd d).1]
    exact hs.fd_or d ((hreg d).mp hr)
  · intro d hr
    rw [(h.pollFd d).2,h.mask]
    exact hs.events d ((hreg d).mp hr)
  · intro i hi
    rw [h.length] at hi
    obtain ⟨d,hr,hd⟩ := hs.owner i hi
    exact ⟨d,(hreg d).mpr hr,by rw [h.index,hd]⟩
  · intro d
    rw [h.mask]
    exact hs.mask d
  · intro d hneg
    rw [h.index] at hneg
    rw [Channel.isNoneEvent,h.mask]
    exact hs.fresh d hneg

omit [DecidableEq ι] in
theorem Same.exact (h : Same s t) (hs : Exact fd s) : Exact fd t := by
  intro d hr
  have hr' : Registered fd s d := by rwa [Registered,h.mpChannels] at hr
  obtain ⟨hw,hi,hrem⟩ := hs d hr'
  have hnone : (t.channels d).isNoneEvent ↔ (s.channels d).isNoneEvent := by
    rw [Channel.isNoneEvent,h.mask,Channel.isNoneEvent]
  constructor
  · rw [hnone,(h.pollFd d).1,(h.pollFd d).2,h.mask]
    exact hw
  · rw [hnone,(h.pollFd d).1]
    exact hi
  · rw [hnone,Removable,(h.pollFd d).1,(h.pollFd d).2,h.mask]
    exact hrem

/-- The loop finds the channel of every pollfd with events, and fills in what was reported. -/
theorem fill_ok {n : Nat} {l : List PollFd} {s : State ι}
    (h : ∀ pfd ∈ l, 0 < pfd.revents.toInt → ∃ c, s.mpChannels pfd.fd = some c ∧ fd c = pfd.fd) :
    ∃ t, fillActiveChannels fd n l s = .ok t ∧ t.pollFds = s.pollFds ∧ t.mpChannels = s.mpChannels ∧
      ∀ d, (t.channels d).nEvents = (s.channels d).nEvents ∧ (t.channels d).nIndex = (s.channels d).nIndex := by
  induction l generalizing n s with
  | nil => cases n <;> exact ⟨s,rfl,rfl,rfl,fun _ => ⟨rfl,rfl⟩⟩
  | cons pfd l ih =>
    cases n with
    | zero => exact ⟨s,rfl,rfl,rfl,fun _ => ⟨rfl,rfl⟩⟩
    | succ n =>
      by_cases hr : 0 < pfd.revents.toInt
      · obtain ⟨c,hmap,hc⟩ := h pfd List.mem_cons_self hr
        let s₁ := setREvents s c (pfd.revents.signExtend 32)
        obtain ⟨t,ht,hfds,hmp,hch⟩ := @ih n { s₁ with activeChannels := s₁.activeChannels ++ [c] }
          fun p hp => h p (List.mem_cons_of_mem _ hp)
        refine ⟨t,?_,hfds,hmp,?_⟩
        · simp only [fillActiveChannels,if_pos hr,hmap,ensure_of _ hc,ok_bind]
          exact ht
        · have hset (d : ι) : (s₁.channels d).nEvents = (s.channels d).nEvents ∧ (s₁.channels d).nIndex = (s.channels d).nIndex := by
            simp only [s₁,setREvents,Function.update_apply]
            split
            · rename_i hd
              rw [hd]
              exact ⟨rfl,rfl⟩
            · exact ⟨rfl,rfl⟩
          intro d
          exact ⟨(hch d).1.trans (hset d).1,(hch d).2.trans (hset d).2⟩
      · obtain ⟨t,ht,hrest⟩ := @ih (n + 1) s fun p hp => h p (List.mem_cons_of_mem _ hp)
        refine ⟨t,?_,hrest⟩
        rw [fillActiveChannels,if_neg hr]
        exact ht

omit [DecidableEq ι] in
/-- The pollfd at a place is that of the channel with this index. -/
theorem Inv.place (h : Inv fd s) {i : Nat} (hi : i < s.pollFds.length) :
    ∃ c, Registered fd s c ∧ (s.channels c).nIndex = i ∧ pollFd s c = s.pollFds[i] ∧
      (s.pollFds[i].fd = fd c ∨ s.pollFds[i].fd = -fd c - 1) := by
  obtain ⟨c,hr,hc⟩ := h.owner i hi
  have hpoll : pollFd s c = s.pollFds[i] := by
    rw [pollFd,pollFdAt,hc]
    exact List.getD_eq_getElem _ _ hi
  have hor := h.fd_or c hr
  rw [hpoll] at hor
  exact ⟨c,hr,hc,hpoll,hor⟩

omit [DecidableEq ι] in
/-- A pollfd that poll does not pass over has its channel in the map. -/
theorem Inv.found (h : Inv fd s) {pfd : PollFd} (hp : pfd ∈ s.pollFds) (h0 : 0 ≤ pfd.fd) (hpos : ∀ c, 0 ≤ fd c) :
    ∃ c, s.mpChannels pfd.fd = some c ∧ fd c = pfd.fd := by
  obtain ⟨i,hi,rfl⟩ := List.mem_iff_getElem.mp hp
  obtain ⟨c,hr,-,-,hor⟩ := h.place hi
  have hp := hpos c
  have hfd : s.pollFds[i].fd = fd c := by omega
  exact ⟨c,by rw [hfd]; exact hr,hfd.symm⟩

theorem poll_ok (hpos : ∀ c, 0 ≤ fd c) (h : Inv fd s) {answer : Except Int (List (BitVec 16))}
    (ha : Allowed fd s (.poll answer)) : ∃ t, poll fd answer s = .ok t ∧ Same s t := by
  cases answer with
  | error e => exact ⟨_,rfl,rfl,fun _ => rfl,fun _ => rfl,rfl,fun _ => ⟨rfl,rfl⟩⟩
  | ok revents =>
    obtain ⟨hlen,hneg⟩ := ha
    let pollFds := List.zipWith (fun (pfd : PollFd) r => { pfd with revents := r }) s.pollFds revents
    have hzip (i : Nat) : (pollFds.getD i ⟨0,0,0⟩).fd = (s.pollFds.getD i ⟨0,0,0⟩).fd ∧
        (pollFds.getD i ⟨0,0,0⟩).events = (s.pollFds.getD i ⟨0,0,0⟩).events := by
      simp only [pollFds,List.getD_eq_getElem?_getD,List.getElem?_zipWith]
      by_cases hi : i < s.pollFds.length
      · rw [List.getElem?_eq_getElem hi,List.getElem?_eq_getElem (by omega)]
        exact ⟨rfl,rfl⟩
      · rw [List.getElem?_eq_none (by omega)]
        exact ⟨rfl,rfl⟩
    have hfound : ∀ pfd ∈ pollFds, 0 < pfd.revents.toInt → ∃ c, s.mpChannels pfd.fd = some c ∧ fd c = pfd.fd := by
      intro pfd hp hr
      obtain ⟨i,hi,rfl⟩ := List.mem_iff_getElem.mp hp
      have hi' : i < (s.pollFds.zip revents).length := by simpa [pollFds] using hi
      have hmem := List.getElem_mem hi'
      rw [List.getElem_zip] at hmem
      simp only [pollFds,List.getElem_zipWith] at hr ⊢
      refine h.found (List.of_mem_zip hmem).1 ?_ hpos
      by_contra hfd
      have h0 := hneg _ hmem (not_le.mp hfd)
      dsimp only at h0
      rw [h0] at hr
      exact absurd hr (by decide)
    obtain ⟨t,ht,hfds,hmp,hch⟩ := @fill_ok ι _ fd (revents.countP (· ≠ 0)) pollFds
      { s with activeChannels := [], pollFds := pollFds } hfound
    refine ⟨t,ht,hmp,fun d => (hch d).1,fun d => (hch d).2,?_,?_⟩
    · rw [hfds]
      simp [pollFds,hlen]
    · intro d
      rw [pollFd,pollFdAt,hfds,(hch d).2]
      exact hzip _

/-! Runs. -/

theorem or_lt {a b : BitVec 32} (ha : a.toNat < 8) (hb : b.toNat < 8) : (a ||| b).toNat < 8 := by
  rw [BitVec.toNat_or]
  exact Nat.or_lt_two_pow (n := 3) ha hb
theorem and_lt {a : BitVec 32} (b : BitVec 32) (ha : a.toNat < 8) : (a &&& b).toNat < 8 := by
  rw [BitVec.toNat_and]
  exact Nat.and_le_left.trans_lt ha

/-- Both ways an update goes, and what it makes of the channel's own pollfd. -/
theorem update_ok (hpos : ∀ c, 0 ≤ fd c) (hfd : Function.Injective fd) (h : Inv fd s)
    (ha : (s.channels c).nIndex < 0 ∨ Registered fd s c) {m : BitVec 32} (hm : m.toNat < 8) :
    ∃ t, updateChannel fd c (setEvents s c m) = .ok t ∧ Inv fd t ∧ Frame fd c s t ∧ Registered fd t c ∧
      (t.channels c).nEvents = m ∧ (pollFd t c).fd =
        if 0 ≤ (s.channels c).nIndex then if m = Channel.noneEvent then -fd c - 1 else (pollFd s c).fd else fd c := by
  by_cases hc : (s.channels c).nIndex < 0
  · obtain ⟨t,ht,hinv,hframe,hr,hmask,hfdt⟩ := register_ok hfd h hc hm
    exact ⟨t,ht,hinv,hframe,hr,hmask,by rw [hfdt,if_neg (not_le.mpr hc)]⟩
  · have hr := ha.resolve_left hc
    obtain ⟨t,ht,hinv,hframe,hr',hmask,hfdt⟩ := modify_ok hpos hfd h hr hm
    exact ⟨t,ht,hinv,hframe,hr',hmask,by rw [hfdt,if_pos (not_lt.mp hc)]⟩

theorem step_ok (hpos : ∀ c, 0 ≤ fd c) (hfd : Function.Injective fd) (h : Inv fd s) {call : Call ι}
    (ha : Allowed fd s call) : ∃ t, step fd s call = .ok t ∧ Inv fd t := by
  have hset {c : ι} (hc : (s.channels c).nIndex < 0 ∨ Registered fd s c) {m : BitVec 32} (hm : m.toNat < 8) :
      ∃ t, updateChannel fd c (setEvents s c m) = .ok t ∧ Inv fd t := by
    obtain ⟨t,ht,hinv,-⟩ := update_ok hpos hfd h hc hm
    exact ⟨t,ht,hinv⟩
  cases call with
  | enableReading c => exact hset ha (or_lt (h.mask c) (by decide))
  | enableWriting c => exact hset ha (or_lt (h.mask c) (by decide))
  | disableWriting c => exact hset ha (and_lt _ (h.mask c))
  | disableAll c => exact hset ha (by decide)
  | removeChannel c =>
    obtain ⟨hr,hnone,hrem⟩ := ha
    obtain ⟨t,ht,hinv,-⟩ := removeChannel_ok hpos hfd h hr hnone hrem
    exact ⟨t,ht,hinv⟩
  | poll answer =>
    obtain ⟨t,ht,hsame⟩ := poll_ok hpos h ha
    exact ⟨t,ht,hsame.inv h⟩

omit [DecidableEq ι] in
theorem Frame.polled (hf : Frame fd c s t) (hs : Exact fd s) {d : ι} (hd : d ≠ c) (hr : Registered fd t d) : Polled fd t d := by
  have hr' := (hf.registered d hd).mp hr
  obtain ⟨hw,hi,hrem⟩ := hs d hr'
  have hnone : (t.channels d).isNoneEvent ↔ (s.channels d).isNoneEvent := by
    rw [Channel.isNoneEvent,hf.mask d hd,Channel.isNoneEvent]
  constructor
  · rw [hnone,hf.pollFd d hd hr',hf.mask d hd]
    exact hw
  · rw [hnone,hf.pollFd d hd hr']
    exact hi
  · rw [hnone,Removable,hf.pollFd d hd hr',hf.mask d hd]
    exact hrem

/-- After an update the pollfds are right exactly when the channel's own descriptor is
encoded as its mask says. -/
theorem set_exact_iff (hpos : ∀ c, 0 ≤ fd c) (hs : Exact fd s) (hinv : Inv fd t) (hf : Frame fd c s t)
    (hr : Registered fd t c) : Exact fd t ↔
      ((pollFd t c).fd < 0 ↔ (t.channels c).nEvents = Channel.noneEvent) := by
  have hor := hinv.fd_or c hr
  have hp := hpos c
  constructor
  · intro hall
    obtain ⟨hw,hi,-⟩ := hall c hr
    constructor
    · intro hneg
      by_contra hsome
      have := (hw hsome).1
      omega
    · exact hi
  · intro hcode d hrd
    by_cases hd : d = c
    · subst hd
      refine ⟨?_,hcode.mpr,?_⟩
      · intro hsome
        exact ⟨by have := mt hcode.mp hsome; omega,hinv.events d hrd⟩
      · intro hnone
        exact ⟨by have := hcode.mpr hnone; omega,hinv.events d hrd⟩
    · exact hf.polled hs hd hrd

/-- A mask with interest is polled if the pollfd is new or was not yet encoded. -/
theorem enable_exact_iff (hpos : ∀ c, 0 ≤ fd c) (hfd : Function.Injective fd) (h : Inv fd s) (hs : Exact fd s)
    (hc : (s.channels c).nIndex < 0 ∨ Registered fd s c) {m : BitVec 32} (hm : m.toNat < 8)
    (hsome : m ≠ Channel.noneEvent) (hrun : updateChannel fd c (setEvents s c m) = .ok t) :
    Exact fd t ↔ (s.channels c).nIndex < 0 ∨ ¬ (s.channels c).isNoneEvent := by
  obtain ⟨t',ht',hinv,hframe,hr,hmask,hfdt⟩ := update_ok hpos hfd h hc hm
  cases hrun.symm.trans ht'
  rw [set_exact_iff hpos hs hinv hframe hr,hmask,hfdt,if_neg hsome]
  have hp := hpos c
  split
  · rename_i h0
    obtain ⟨hw,hi,-⟩ := hs c (hc.resolve_left (not_lt.mpr h0))
    by_cases hnone : (s.channels c).isNoneEvent
    · have := hi hnone
      simp [hsome,hnone,this,h0]
    · have hown := (hw hnone).1
      simp [hsome,hnone,hown,hp]
  · rename_i h0
    simp [hsome,hp,not_le.mp h0]

/-- A mask with less interest is polled if the channel has a pollfd. -/
theorem disable_exact_iff (hpos : ∀ c, 0 ≤ fd c) (hfd : Function.Injective fd) (h : Inv fd s) (hs : Exact fd s)
    (hc : (s.channels c).nIndex < 0 ∨ Registered fd s c) {m : BitVec 32} (hm : m.toNat < 8)
    (hless : (s.channels c).isNoneEvent → m = Channel.noneEvent) (hrun : updateChannel fd c (setEvents s c m) = .ok t) :
    Exact fd t ↔ 0 ≤ (s.channels c).nIndex := by
  obtain ⟨t',ht',hinv,hframe,hr,hmask,hfdt⟩ := update_ok hpos hfd h hc hm
  cases hrun.symm.trans ht'
  rw [set_exact_iff hpos hs hinv hframe hr,hmask,hfdt]
  have hp := hpos c
  by_cases h0 : 0 ≤ (s.channels c).nIndex
  · have hw := (hs c (hc.resolve_left (not_lt.mpr h0))).watched
    by_cases hnone : m = Channel.noneEvent
    · simp only [h0,if_true,hnone,iff_true]
      omega
    · have hown := (hw (mt hless hnone)).1
      simp [h0,hnone,hown,hp]
  · have hnone := hless (h.fresh c (not_le.mp h0))
    simp [h0,hnone,hp]

/-- A call keeps the pollfds right exactly when it enables a new channel or one that has
interest, or disables a registered one. -/
theorem step_exact_iff (hpos : ∀ c, 0 ≤ fd c) (hfd : Function.Injective fd) (h : Inv fd s) (hs : Exact fd s)
    {call : Call ι} (ha : Allowed fd s call) (ht : step fd s call = .ok t) : Exact fd t ↔ Steady s call := by
  cases call with
  | enableReading c =>
    refine enable_exact_iff hpos hfd h hs ha (or_lt (h.mask c) (by decide)) ?_ ht
    exact fun h => absurd (BitVec.or_eq_zero_iff.mp h).2 (by decide)
  | enableWriting c =>
    refine enable_exact_iff hpos hfd h hs ha (or_lt (h.mask c) (by decide)) ?_ ht
    exact fun h => absurd (BitVec.or_eq_zero_iff.mp h).2 (by decide)
  | disableWriting c =>
    refine disable_exact_iff hpos hfd h hs ha (and_lt _ (h.mask c)) ?_ ht
    intro hnone
    rw [hnone]
    exact BitVec.zero_and
  | disableAll c => exact disable_exact_iff hpos hfd h hs ha (by decide) (fun _ => rfl) ht
  | removeChannel c =>
    obtain ⟨hr,hnone,hrem⟩ := ha
    obtain ⟨t',ht',-,hframe,hout⟩ := removeChannel_ok hpos hfd h hr hnone hrem
    cases ht.symm.trans ht'
    refine iff_of_true ?_ trivial
    intro d hrd
    refine hframe.polled hs ?_ hrd
    rintro rfl
    exact hout hrd
  | poll answer =>
    obtain ⟨t',ht',hsame⟩ := poll_ok hpos h ha
    cases ht.symm.trans ht'
    exact iff_of_true (hsame.exact hs) trivial

omit [DecidableEq ι] in
theorem inv_init : Inv fd (init : State ι) where
  listed _ _ h := by cases h
  index _ h := by cases h
  fd_or _ h := by cases h
  events _ h := by cases h
  owner _ h := absurd h (Nat.not_lt_zero _)
  mask _ := show (0 : BitVec 32).toNat < 8 by decide
  fresh _ _ := rfl

theorem always_exact_iff (hpos : ∀ c, 0 ≤ fd c) (hfd : Function.Injective fd) {calls : List (Call ι)}
    (h : (machine fd).Along (Allowed fd) init calls) :
    (machine fd).Always (Exact fd) init calls ↔ (machine fd).Along Steady init calls :=
  (machine fd).always_iff (A := Allowed fd) (P := Inv fd) (fun _ _ hs ha => step_ok hpos hfd hs ha)
    (fun _ _ _ hs hq ha ht => step_exact_iff hpos hfd hs hq ha ht) inv_init (fun _ hr => by cases hr) h

/-- In every run the pollfds are right after each call exactly when no channel without
interest is enabled again and no new channel is disabled; and no run halts. -/
theorem poll_exact_iff (hpos : ∀ c, 0 ≤ fd c) (hfd : Function.Injective fd) (calls : List (Call ι))
    (h : (machine fd).Along (Allowed fd) init calls) :
    ((machine fd).Always (Exact fd) init calls ↔ (machine fd).Along Steady init calls) ∧
      ∃ s, (machine fd).run init calls = .ok s := by
  refine ⟨always_exact_iff hpos hfd h,?_⟩
  obtain ⟨s,hrun,-⟩ := (machine fd).run_refines (fun _ => ()) (fun _ _ => ())
    (fun s call hs ha => by
      obtain ⟨t,hstep,ht⟩ := step_ok hpos hfd hs ha
      exact ⟨t,hstep,ht,rfl⟩) inv_init h
  exact ⟨s,hrun⟩

/-- Two channels: interest comes and goes, an event is reported, and the first is removed. -/
def steadyCalls : List (Call Bool) :=
  [.enableReading false,.enableReading true,.poll (.ok [1,0]),.enableWriting false,.disableWriting false,.disableAll false,
    .disableAll false,.removeChannel false,.enableWriting true]

theorem poll_exact_iff_two : (machine EPoller.twoFds).Always (Exact EPoller.twoFds) init steadyCalls :=
  (poll_exact_iff (by decide) (show Function.Injective EPoller.twoFds by decide) steadyCalls (by decide +kernel)).1.mpr
    (by decide +kernel)

/-- A channel that is enabled again after it was disabled stays encoded, so poll passes
over it; and one whose first call is DisableAll is polled, and cannot be removed. -/
theorem enable_again_is_deaf :
    (∃ s, (machine EPoller.twoFds).run init [.enableReading false,.disableAll false,.enableReading false] = .ok s ∧
      (s.channels false).nEvents = 3 ∧ pollFd s false = ⟨-5,3,0⟩) ∧
    (∃ s, (machine EPoller.twoFds).run init [.disableAll false] = .ok s ∧
      (s.channels false).nEvents = 0 ∧ pollFd s false = ⟨4,0,0⟩ ∧
      removeChannel EPoller.twoFds false s = .error (.assertion "pfd.fd == -pChannel->GetFd() - 1 && pfd.events == pChannel->GetEvents()")) ∧
    ¬ (machine EPoller.twoFds).Always (Exact EPoller.twoFds) init [.enableReading false,.disableAll false,.enableReading false] ∧
    ¬ (machine EPoller.twoFds).Always (Exact EPoller.twoFds) init [.disableAll false] := by
  refine ⟨?_,?_,?_,?_⟩
  · obtain ⟨s,hrun,hs⟩ := (machine EPoller.twoFds).exists_run_eq [.enableReading false,.disableAll false,.enableReading false]
      (fun s => ((s.channels false).nEvents,pollFd s false)) (s := init) (b := (3,⟨-5,3,0⟩)) (by decide +kernel)
    exact ⟨s,hrun,(Prod.mk.inj hs).1,(Prod.mk.inj hs).2⟩
  · refine ⟨_,rfl,by decide +kernel,by decide +kernel,?_⟩
    rfl
  · rw [always_exact_iff (by decide) (by decide) (by decide +kernel)]
    decide +kernel
  · rw [always_exact_iff (by decide) (by decide) (by decide +kernel)]
    decide +kernel

end LinuxServer.Reactor.Poller
