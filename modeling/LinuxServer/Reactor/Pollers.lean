import LinuxServer.Reactor.EPollerWatch
import LinuxServer.Reactor.Poller

/-! What a poller is for: channels come with interest, change it and go, and a poll finds
those that are ready. The epoll-based poller and the poll-based one do the same of it. -/
namespace LinuxServer.Reactor.Pollers
open LinuxServer.Lib
open EPoller (Channel)

/-- What a channel is to the poller. A channel that was removed is not used again. -/
inductive Standing where
  | fresh
  | registered (nEvents : BitVec 32)
  | removed

structure Watch (ι : Type) where
  standing : ι → Standing
  /-- How many events a poll has room for. -/
  room : Nat
  /-- The channels that the last poll found, and what each was last ready for. -/
  active : List ι
  reported : ι → BitVec 32

inductive Call (ι : Type) where
  | enableReading (c : ι)
  | enableWriting (c : ι)
  | disableWriting (c : ι)
  | disableAll (c : ι)
  | removeChannel (c : ι)
  /-- The error of the system call, or the channels that are ready with their events. -/
  | poll (answer : Except Int (List (ι × BitVec 16)))

variable {ι : Type} [DecidableEq ι]

/-- The events of a channel in the answer. -/
def readyFor (ready : List (ι × BitVec 16)) (c : ι) : BitVec 16 := ((ready.find? fun e => e.1 = c).map Prod.snd).getD 0

namespace Watch

def init : Watch ι := ⟨fun _ => .fresh,EPoller.initEventListSize,[],fun _ => 0⟩

def setStanding (w : Watch ι) (c : ι) (standing : Standing) : Watch ι :=
  { w with standing := Function.update w.standing c standing }

/-- A new channel, or one that has interest. -/
def enable (w : Watch ι) (c : ι) (events : BitVec 32) : Except Halt (Watch ι) :=
  match w.standing c with
  | .fresh => .ok (w.setStanding c (.registered events))
  | .registered nEvents => do
    ensure .notEnabled (nEvents ≠ Channel.noneEvent)
    .ok (w.setStanding c (.registered (nEvents ||| events)))
  | .removed => .error .notEnabled

/-- A registered channel that has interest. -/
def disable (w : Watch ι) (c : ι) (keep : BitVec 32) : Except Halt (Watch ι) :=
  match w.standing c with
  | .registered nEvents => do
    ensure .notEnabled (nEvents ≠ Channel.noneEvent)
    .ok (w.setStanding c (.registered (nEvents &&& keep)))
  | _ => .error .notEnabled

def remove (w : Watch ι) (c : ι) : Except Halt (Watch ι) :=
  match w.standing c with
  | .registered nEvents => do
    ensure .notEnabled (nEvents = Channel.noneEvent)
    .ok (w.setStanding c .removed)
  | _ => .error .notEnabled

/-- The kernel's answer: channels with interest, each once, no more than there is room for. -/
def Answers (w : Watch ι) (ready : List (ι × BitVec 16)) : Prop :=
  ready.length ≤ w.room ∧ (ready.map Prod.fst).Nodup ∧ ∀ e ∈ ready, 0 < e.2.toInt ∧
    match w.standing e.1 with
    | .registered nEvents => nEvents ≠ Channel.noneEvent
    | _ => False

instance (w : Watch ι) (ready : List (ι × BitVec 16)) : Decidable (w.Answers ready) :=
  have (e : ι × BitVec 16) : Decidable (match w.standing e.1 with
    | .registered nEvents => nEvents ≠ Channel.noneEvent
    | _ => False) :=
    match w.standing e.1 with
    | .registered nEvents => inferInstanceAs (Decidable (nEvents ≠ Channel.noneEvent))
    | .fresh | .removed => isFalse id
  inferInstanceAs (Decidable (_ ∧ _ ∧ ∀ e ∈ ready, _ ∧ _))

def poll (w : Watch ι) : Except Int (List (ι × BitVec 16)) → Except Halt (Watch ι)
  | .error _ => .ok { w with active := [] }
  | .ok ready => do
    ensure .notEnabled (w.Answers ready)
    .ok { w with
      room := if ready.length = w.room then 2 * w.room else w.room
      active := ready.map Prod.fst
      reported := fun c => if c ∈ ready.map Prod.fst then (readyFor ready c).signExtend 32 else w.reported c }

def step (w : Watch ι) : Call ι → Except Halt (Watch ι)
  | .enableReading c => w.enable c Channel.readEvent
  | .enableWriting c => w.enable c Channel.writeEvent
  | .disableWriting c => w.disable c (~~~Channel.writeEvent)
  | .disableAll c => w.disable c 0
  | .removeChannel c => w.remove c
  | .poll answer => w.poll answer

def machine : Machine (Watch ι) (Call ι) Halt := ⟨fun w => w = init,step⟩

end Watch

variable (fd : ι → Int)

/-- epoll_wait gives the channels' pointers back. -/
def Call.toEPoller : Call ι → EPoller.Call ι
  | .enableReading c => .enableReading c
  | .enableWriting c => .enableWriting c
  | .disableWriting c => .disableWriting c
  | .disableAll c => .disableAll c
  | .removeChannel c => .removeChannel c
  | .poll (.error nErrno) => .poll (.error nErrno)
  | .poll (.ok ready) => .poll (.ok (ready.map fun e => (e.1,e.2.signExtend 32)))

/-- What poll stores in a pollfd: the events of its descriptor's channel. -/
def revents (ready : List (ι × BitVec 16)) (pfd : Poller.PollFd) : BitVec 16 :=
  ((ready.find? fun e => fd e.1 = pfd.fd).map Prod.snd).getD 0

/-- poll fills in all pollfds, as they are at the call. -/
def Call.toPoller (t : Poller.State ι) : Call ι → Poller.Call ι
  | .enableReading c => .enableReading c
  | .enableWriting c => .enableWriting c
  | .disableWriting c => .disableWriting c
  | .disableAll c => .disableAll c
  | .removeChannel c => .removeChannel c
  | .poll (.error nErrno) => .poll (.error nErrno)
  | .poll (.ok ready) => .poll (.ok (t.pollFds.map (revents fd ready)))

/-- Both pollers get the same calls, and the same channels are ready for them. -/
def both : Machine (EPoller.State ι × Poller.State ι) (Call ι) Halt where
  Init p := p = (EPoller.init,Poller.init)
  step p call := do
    let s ← EPoller.step fd p.1 call.toEPoller
    let t ← Poller.step fd p.2 (call.toPoller fd p.2)
    .ok (s,t)

/-- What the pollers have of a channel. -/
def Standing.Shows (s : EPoller.State ι) (t : Poller.State ι) (c : ι) : Standing → Prop
  | .fresh => s.mpChannel (fd c) = none ∧ (t.channels c).nIndex < 0 ∧
    (s.channels c).isNoneEvent ∧ (t.channels c).isNoneEvent
  | .registered nEvents => s.mpChannel (fd c) = some c ∧ Poller.Registered fd t c ∧
    (s.channels c).nEvents = nEvents ∧ (t.channels c).nEvents = nEvents
  | .removed => s.mpChannel (fd c) = none ∧ ¬ Poller.Registered fd t c

/-- Both pollers are right for themselves, and both are what the abstract one is. -/
structure Agree (w : Watch ι) (s : EPoller.State ι) (t : Poller.State ι) : Prop where
  epoller : EPoller.Inv fd s
  watched : EPoller.Watched fd s
  poller : Poller.Inv fd t
  exact : Poller.Exact fd t
  standing : ∀ c, (w.standing c).Shows fd s t c
  room : s.unEvents = w.room
  active : s.activeChannels = w.active ∧ t.activeChannels.Perm w.active
  reported : ∀ c, (s.channels c).nREvents = w.reported c ∧ (t.channels c).nREvents = w.reported c

variable {fd} {w : Watch ι} {s s' : EPoller.State ι} {t t' : Poller.State ι} {c : ι}

/-! Only a poll changes what was found, and what a poll has room for. -/

structure EPollerQuiet (s s' : EPoller.State ι) : Prop where
  room : s'.unEvents = s.unEvents
  active : s'.activeChannels = s.activeChannels
  reported : ∀ d, (s'.channels d).nREvents = (s.channels d).nREvents

omit [DecidableEq ι] in
private theorem EPollerQuiet.trans {s'' : EPoller.State ι} (h : EPollerQuiet s s') (h' : EPollerQuiet s' s'') : EPollerQuiet s s'' :=
  ⟨h'.room.trans h.room,h'.active.trans h.active,fun d => (h'.reported d).trans (h.reported d)⟩

private theorem quiet_setEvents (nEvents : BitVec 32) : EPollerQuiet s (EPoller.setEvents s c nEvents) := by
  refine ⟨rfl,rfl,fun d => ?_⟩
  simp only [EPoller.setEvents,Function.update_apply]
  split
  · rename_i hd
    rw [hd]
  · rfl

private theorem quiet_setIndex (nIndex : Int) : EPollerQuiet s (EPoller.setIndex s c nIndex) := by
  refine ⟨rfl,rfl,fun d => ?_⟩
  simp only [EPoller.setIndex,Function.update_apply]
  split
  · rename_i hd
    rw [hd]
  · rfl

omit [DecidableEq ι] in
private theorem quiet_update {nOperation : EPoller.Operation} (h : EPoller.update fd nOperation c s = .ok s') : EPollerQuiet s s' := by
  refine ⟨?_,?_,fun d => by rw [(EPoller.update_frame h).1]⟩
  all_goals
    unfold EPoller.update at h
    split at h
    · cases h
      rfl
    · split at h <;> cases h
      rfl

private theorem quiet_updateChannel (h : EPoller.updateChannel fd c s = .ok s') : EPollerQuiet s s' := by
  simp only [EPoller.updateChannel] at h
  split at h
  · obtain ⟨u,hu,h⟩ := (bind_ok_iff _ _ _).mp h
    have hregister : EPollerQuiet s u := by
      unfold EPoller.register at hu
      split at hu
      · simp only [bind_ok_iff,Except.ok.injEq] at hu
        obtain ⟨-,-,rfl⟩ := hu
        exact ⟨rfl,rfl,fun _ => rfl⟩
      · simp only [bind_ok_iff,Except.ok.injEq] at hu
        obtain ⟨-,-,-,-,rfl⟩ := hu
        exact ⟨rfl,rfl,fun _ => rfl⟩
    exact hregister.trans ((quiet_setIndex _).trans (quiet_update h))
  · simp only [bind_ok_iff] at h
    obtain ⟨-,-,-,-,-,-,h⟩ := h
    unfold EPoller.modify at h
    split at h
    · simp only [bind_ok_iff,Except.ok.injEq] at h
      obtain ⟨u,hu,rfl⟩ := h
      exact (quiet_update hu).trans (quiet_setIndex _)
    · exact quiet_update h

private theorem quiet_removeChannel (h : EPoller.removeChannel fd c s = .ok s') : EPollerQuiet s s' := by
  simp only [EPoller.removeChannel,bind_ok_iff,Except.ok.injEq] at h
  obtain ⟨-,-,-,-,-,-,-,-,-,-,u,hu,rfl⟩ := h
  have hleave : EPollerQuiet s u := by
    unfold EPoller.leave at hu
    split at hu
    · have hquiet := quiet_update hu
      exact ⟨hquiet.room,hquiet.active,hquiet.reported⟩
    · cases hu
      exact ⟨rfl,rfl,fun _ => rfl⟩
  exact hleave.trans (quiet_setIndex _)

/-- A call for one channel leaves the others' events, and the indices of those that are
not in the map. -/
structure PollerQuiet (c : ι) (t t' : Poller.State ι) : Prop where
  active : t'.activeChannels = t.activeChannels
  reported : ∀ d, (t'.channels d).nREvents = (t.channels d).nREvents
  index : ∀ d, d ≠ c → (∀ n, t.mpChannels n ≠ some d) → (t'.channels d).nIndex = (t.channels d).nIndex

private theorem setIndex_reported (nIndex : Int) (d : ι) :
    ((Poller.setIndex t c nIndex).channels d).nREvents = (t.channels d).nREvents := by
  simp only [Poller.setIndex,Function.update_apply]
  split
  · rename_i hd
    rw [hd]
  · rfl

private theorem pollerQuiet_updateChannel {m : BitVec 32} (h : Poller.updateChannel fd c (Poller.setEvents t c m) = .ok t') :
    PollerQuiet c t t' := by
  have hset (d : ι) : ((Poller.setEvents t c m).channels d).nREvents = (t.channels d).nREvents ∧
      ((Poller.setEvents t c m).channels d).nIndex = (t.channels d).nIndex := by
    simp only [Poller.setEvents,Function.update_apply]
    split
    · rename_i hd
      rw [hd]
      exact ⟨rfl,rfl⟩
    · exact ⟨rfl,rfl⟩
  simp only [Poller.updateChannel] at h
  split at h
  · simp only [bind_ok_iff,Except.ok.injEq] at h
    obtain ⟨-,-,rfl⟩ := h
    refine ⟨rfl,fun d => ?_,fun d hd _ => ?_⟩
    · exact (setIndex_reported ..).trans (hset d).1
    · exact (congrArg Channel.nIndex (Function.update_of_ne hd ..)).trans (hset d).2
  · simp only [bind_ok_iff,Except.ok.injEq] at h
    obtain ⟨-,-,-,-,-,-,-,-,rfl⟩ := h
    exact ⟨rfl,fun d => (hset d).1,fun d _ _ => (hset d).2⟩

private theorem pollerQuiet_removeChannel (h : Poller.removeChannel fd c t = .ok t') : PollerQuiet c t t' := by
  simp only [Poller.removeChannel,bind_ok_iff] at h
  obtain ⟨-,-,-,-,-,-,-,-,-,-,-,-,h⟩ := h
  split at h
  · cases h
    exact ⟨rfl,fun _ => rfl,fun _ _ _ => rfl⟩
  · simp only [Poller.moveLast] at h
    split at h
    · rename_i d hmap
      cases h
      refine ⟨rfl,setIndex_reported _,fun e he hout => ?_⟩
      have hne : e ≠ d := by
        rintro rfl
        have hkept : ∀ n, Function.update t.mpChannels (fd c) none n ≠ some e := fun n hn => by
          rw [Function.update_apply] at hn
          split at hn
          · cases hn
          · exact hout n hn
        exact hkept _ hmap
      exact congrArg Channel.nIndex (Function.update_of_ne hne ..)
    · cases h

/-! The calls that change interest, and the removal. -/

omit [DecidableEq ι] in
/-- What is not the channel's own stays as the frames of both pollers say. -/
private theorem Agree.standing_of_ne (h : Agree fd w s t) (hfd : Function.Injective fd) (hs : EPoller.Frame fd c s s')
    (ht : Poller.Frame fd c t t') (hquiet : PollerQuiet c t t') {d : ι} (hd : d ≠ c) :
    (w.standing d).Shows fd s' t' d := by
  have hmap : s'.mpChannel (fd d) = s.mpChannel (fd d) := hs.mpChannel _ (hfd.ne hd)
  have hold := h.standing d
  cases hw : w.standing d with
  | fresh =>
    rw [hw] at hold
    obtain ⟨hout,hindex,hnone,hnone'⟩ := hold
    have hnot : ∀ n, t.mpChannels n ≠ some d := by
      intro n hn
      have hr : Poller.Registered fd t d := by rw [Poller.Registered,← h.poller.listed n d hn]; exact hn
      exact absurd (h.poller.index d hr).1 (not_le.mpr hindex)
    refine ⟨by rw [hmap]; exact hout,by rw [hquiet.index d hd hnot]; exact hindex,?_,?_⟩
    · rw [hs.channels d hd]
      exact hnone
    · rw [Channel.isNoneEvent,ht.mask d hd]
      exact hnone'
  | registered m =>
    rw [hw] at hold
    obtain ⟨hin,hr,hm,hm'⟩ := hold
    exact ⟨by rw [hmap]; exact hin,(ht.registered d hd).mpr hr,by rw [hs.channels d hd]; exact hm,
      by rw [ht.mask d hd]; exact hm'⟩
  | removed =>
    rw [hw] at hold
    obtain ⟨hout,hr⟩ := hold
    exact ⟨by rw [hmap]; exact hout,fun hr' => hr ((ht.registered d hd).mp hr')⟩

/-- A new mask, for a channel that has interest or has it from now on. -/
private theorem Agree.set (hpos : ∀ c, 0 ≤ fd c) (hfd : Function.Injective fd) (h : Agree fd w s t) {m : BitVec 32}
    (hm : m.toNat < 8) (hc : w.standing c = .fresh ∧ m ≠ Channel.noneEvent ∨
      ∃ n, w.standing c = .registered n ∧ n ≠ Channel.noneEvent) :
    ∃ s' t', EPoller.updateChannel fd c (EPoller.setEvents s c m) = .ok s' ∧
      Poller.updateChannel fd c (Poller.setEvents t c m) = .ok t' ∧ Agree fd (w.setStanding c (.registered m)) s' t' := by
  have hold := h.standing c
  -- the channel is new to both, or in both maps with interest
  have hcase : ((t.channels c).nIndex < 0 ∧ m ≠ Channel.noneEvent ∨
      Poller.Registered fd t c ∧ ¬ (t.channels c).isNoneEvent) ∧
      ((s.channels c).isNoneEvent → m ≠ Channel.noneEvent) := by
    rcases hc with ⟨hw,hsome⟩ | ⟨n,hw,hsome⟩
    · rw [hw] at hold
      exact ⟨.inl ⟨hold.2.1,hsome⟩,fun _ => hsome⟩
    · rw [hw] at hold
      obtain ⟨-,hr,hs,ht⟩ := hold
      refine ⟨.inr ⟨hr,by rw [Channel.isNoneEvent,ht]; exact hsome⟩,fun hnone => ?_⟩
      rw [Channel.isNoneEvent,hs] at hnone
      exact absurd hnone hsome
  obtain ⟨hown,hkeep⟩ := hcase
  obtain ⟨s',hs,hframe,hsettled⟩ := EPoller.updateChannel_ok (EPoller.tracked_setEvents m (h.epoller.settled c).1)
  have hframe' := (EPoller.frame_setEvents m).trans hframe
  have hinv := h.epoller.frame hfd hframe' hsettled
  have hwatched : EPoller.Watched fd s' :=
    (EPoller.set_watched_iff hfd h.epoller h.watched hinv hs).mpr fun hnone => hkeep hnone.1 hnone.2
  obtain ⟨t',ht,hpinv,hpframe,hr,hmask,hpfd⟩ := Poller.update_ok hpos hfd h.poller (hown.imp And.left And.left) hm
  have hexact : Poller.Exact fd t' := by
    rw [Poller.set_exact_iff hpos h.exact hpinv hpframe hr,hmask,hpfd]
    have hp := hpos c
    rcases hown with ⟨hindex,hsome⟩ | ⟨hreg,hsome⟩
    · rw [if_neg (not_le.mpr hindex)]
      exact iff_of_false (not_lt.mpr hp) hsome
    · rw [if_pos (h.poller.index c hreg).1,((h.exact c hreg).watched hsome).1]
      by_cases hnone : m = Channel.noneEvent
      · rw [if_pos hnone]
        exact iff_of_true (by omega) hnone
      · rw [if_neg hnone]
        exact iff_of_false (not_lt.mpr hp) hnone
  have hquiet := (quiet_setEvents m).trans (quiet_updateChannel hs)
  have hpquiet := pollerQuiet_updateChannel ht
  refine ⟨s',t',hs,ht,hinv,hwatched,hpinv,hexact,fun d => ?_,hquiet.room.trans h.room,?_,fun d => ?_⟩
  · by_cases hd : d = c
    · rw [hd,Watch.setStanding]
      simp only [Function.update_self]
      refine ⟨?_,hr,?_,hmask⟩
      · rcases hsettled.1 with ⟨-,hout,-⟩ | ⟨-,hin,-⟩ | ⟨-,hin,-⟩
        · exact absurd hout (EPoller.updateChannel_registers hs)
        · exact hin
        · exact hin
      · rw [(EPoller.set_watches h.epoller hs).1 c,if_pos rfl]
    · simp only [Watch.setStanding,Function.update_of_ne hd]
      exact h.standing_of_ne hfd hframe' hpframe hpquiet hd
  · exact ⟨hquiet.active.trans h.active.1,by rw [hpquiet.active]; exact h.active.2⟩
  · rw [hquiet.reported,hpquiet.reported]
    exact h.reported d

private theorem Agree.remove (hpos : ∀ c, 0 ≤ fd c) (hfd : Function.Injective fd) (h : Agree fd w s t)
    (hc : w.standing c = .registered Channel.noneEvent) :
    ∃ s' t', EPoller.removeChannel fd c s = .ok s' ∧ Poller.removeChannel fd c t = .ok t' ∧
      Agree fd (w.setStanding c .removed) s' t' := by
  have hold := h.standing c
  rw [hc] at hold
  obtain ⟨hin,hreg,hs,ht⟩ := hold
  obtain ⟨s',hs',hframe,hsettled⟩ := EPoller.removeChannel_ok (h.epoller.settled c).1 hin hs
  obtain ⟨t',ht',hpinv,hpframe,hout⟩ := Poller.removeChannel_ok hpos hfd h.poller hreg ht ((h.exact c hreg).removable ht)
  have hquiet := quiet_removeChannel hs'
  have hpquiet := pollerQuiet_removeChannel ht'
  have hexact : Poller.Exact fd t' := by
    intro d hr
    refine hpframe.polled h.exact ?_ hr
    rintro rfl
    exact hout hr
  refine ⟨s',t',hs',ht',h.epoller.frame hfd hframe hsettled,EPoller.removeChannel_watched hfd h.epoller h.watched hs',hpinv,
    hexact,fun d => ?_,hquiet.room.trans h.room,⟨hquiet.active.trans h.active.1,by rw [hpquiet.active]; exact h.active.2⟩,
    fun d => by rw [hquiet.reported,hpquiet.reported]; exact h.reported d⟩
  by_cases hd : d = c
  · rw [hd,Watch.setStanding]
    simp only [Function.update_self]
    exact ⟨(EPoller.removeChannel_forgets hs').2.2,hout⟩
  · simp only [Watch.setStanding,Function.update_of_ne hd]
    exact h.standing_of_ne hfd hframe hpframe hpquiet hd

/-! The polls. -/

/-- The events are taken down in their order. -/
private theorem epoller_fill {g : ι → BitVec 32} {events : List (ι × BitVec 32)} (hg : ∀ e ∈ events, e.2 = g e.1)
    (h : events.foldlM (EPoller.fillActiveChannel fd) s = .ok s') :
    s'.unEvents = s.unEvents ∧ s'.activeChannels = s.activeChannels ++ events.map Prod.fst ∧
      ∀ d, (s'.channels d).nREvents = if d ∈ events.map Prod.fst then g d else (s.channels d).nREvents := by
  induction events generalizing s with
  | nil =>
    cases h
    exact ⟨rfl,(List.append_nil _).symm,fun d => (if_neg List.not_mem_nil).symm⟩
  | cons e events ih =>
    obtain ⟨u,hu,h⟩ := (bind_ok_iff _ _ _).mp h
    obtain ⟨hroom,hactive,hreported⟩ := ih (fun e he => hg e (List.mem_cons_of_mem _ he)) h
    simp only [EPoller.fillActiveChannel,bind_ok_iff,Except.ok.injEq] at hu
    obtain ⟨-,-,-,-,rfl⟩ := hu
    refine ⟨hroom,?_,fun d => ?_⟩
    · rw [hactive,List.map_cons]
      exact List.append_assoc ..
    · rw [hreported d,List.map_cons]
      by_cases hlater : d ∈ events.map Prod.fst
      · rw [if_pos hlater,if_pos (List.mem_cons_of_mem _ hlater)]
      · rw [if_neg hlater]
        simp only [EPoller.setREvents,Function.update_apply,List.mem_cons]
        by_cases hd : d = e.1
        · rw [if_pos hd,if_pos (.inl hd),hd]
          exact hg e List.mem_cons_self
        · rw [if_neg hd,if_neg (not_or_intro hd hlater)]

/-- The channels of the pollfds with events, in the order of the vector. -/
def found (mp : Int → Option ι) (l : List Poller.PollFd) : List ι :=
  l.filterMap fun pfd => if pfd.revents = 0 then none else mp pfd.fd

private theorem poller_fill {g : ι → BitVec 16} {l : List Poller.PollFd}
    (hg : ∀ pfd ∈ l, pfd.revents ≠ 0 → 0 < pfd.revents.toInt ∧
      ∃ d, t.mpChannels pfd.fd = some d ∧ fd d = pfd.fd ∧ pfd.revents = g d) :
    ∃ t', Poller.fillActiveChannels fd (l.countP (·.revents ≠ 0)) l t = .ok t' ∧
      t'.activeChannels = t.activeChannels ++ found t.mpChannels l ∧
      ∀ d, (t'.channels d).nREvents = if d ∈ found t.mpChannels l then (g d).signExtend 32 else (t.channels d).nREvents := by
  induction l generalizing t with
  | nil => exact ⟨t,rfl,(List.append_nil _).symm,fun d => (if_neg List.not_mem_nil).symm⟩
  | cons pfd l ih =>
    have hrest := fun p hp => hg p (List.mem_cons_of_mem pfd hp)
    by_cases hzero : pfd.revents = 0
    · obtain ⟨t',ht,hactive,hreported⟩ := ih hrest
      have hfound : found t.mpChannels (pfd :: l) = found t.mpChannels l :=
        List.filterMap_cons_none (if_pos hzero)
      have hcount : (pfd :: l).countP (·.revents ≠ 0) = l.countP (·.revents ≠ 0) :=
        List.countP_cons_of_neg (by simp [hzero])
      refine ⟨t',?_,by rw [hfound]; exact hactive,by rw [hfound]; exact hreported⟩
      rw [hcount,← ht]
      cases hn : l.countP (·.revents ≠ 0) with
      | zero => cases l <;> rfl
      | succ n =>
        have hpositive : ¬ 0 < pfd.revents.toInt := by rw [hzero]; decide
        rw [Poller.fillActiveChannels,if_neg hpositive]
    · obtain ⟨hpositive,c,hmap,hc,hevents⟩ := hg pfd List.mem_cons_self hzero
      have hfound : found t.mpChannels (pfd :: l) = c :: found t.mpChannels l :=
        List.filterMap_cons_some ((if_neg hzero).trans hmap)
      have hcount : (pfd :: l).countP (·.revents ≠ 0) = l.countP (·.revents ≠ 0) + 1 :=
        List.countP_cons_of_pos (decide_eq_true hzero)
      let u := Poller.setREvents t c (pfd.revents.signExtend 32)
      obtain ⟨t',ht,hactive,hreported⟩ := @ih { u with activeChannels := u.activeChannels ++ [c] } hrest
      refine ⟨t',?_,?_,fun d => ?_⟩
      · rw [hcount,Poller.fillActiveChannels,if_pos hpositive,hmap]
        simp only [ensure_of _ hc,ok_bind]
        exact ht
      · rw [hactive,hfound]
        exact List.append_assoc t.activeChannels [c] _
      · rw [hreported d,hfound]
        change (if d ∈ found t.mpChannels l then _ else _) = _
        by_cases hlater : d ∈ found t.mpChannels l
        · rw [if_pos hlater,if_pos (List.mem_cons_of_mem _ hlater)]
        · rw [if_neg hlater]
          simp only [u,Poller.setREvents,Function.update_apply,List.mem_cons]
          by_cases hd : d = c
          · rw [if_pos hd,if_pos (.inl hd),hd,hevents]
          · rw [if_neg hd,if_neg (not_or_intro hd hlater)]

theorem readyFor_mem {ready : List (ι × BitVec 16)} (hnodup : (ready.map Prod.fst).Nodup) {e : ι × BitVec 16}
    (he : e ∈ ready) : readyFor ready e.1 = e.2 := by
  obtain ⟨x,hx⟩ := Option.isSome_iff_exists.mp (List.find?_isSome (p := fun x : ι × BitVec 16 => x.1 = e.1).mpr ⟨e,he,by simp⟩)
  have hkey : x.1 = e.1 := by simpa using List.find?_some hx
  have hsame : x = e := List.inj_on_of_nodup_map hnodup (List.mem_of_find?_eq_some hx) he hkey
  rw [readyFor,hx,hsame]
  rfl

theorem revents_eq (hfd : Function.Injective fd) (ready : List (ι × BitVec 16)) {pfd : Poller.PollFd} (hc : fd c = pfd.fd) :
    revents fd ready pfd = readyFor ready c := by
  rw [revents,readyFor,← hc]
  simp only [hfd.eq_iff]

omit [DecidableEq ι] in
/-- Events are stored for ready channels only. -/
theorem revents_ne_zero {ready : List (ι × BitVec 16)} {pfd : Poller.PollFd} (h : revents fd ready pfd ≠ 0) :
    ∃ c ∈ ready.map Prod.fst, fd c = pfd.fd := by
  cases hfind : ready.find? fun e => fd e.1 = pfd.fd with
  | none =>
    rw [revents,hfind] at h
    exact absurd rfl h
  | some e => exact ⟨e.1,List.mem_map_of_mem (List.mem_of_find?_eq_some hfind),by simpa using List.find?_some hfind⟩

omit [DecidableEq ι] in
/-- A ready channel is registered with interest. -/
private theorem Watch.Answers.interest {ready : List (ι × BitVec 16)} (ha : w.Answers ready)
    {e : ι × BitVec 16} (he : e ∈ ready) :
    ∃ n, w.standing e.1 = .registered n ∧ n ≠ Channel.noneEvent := by
  have hsome := (ha.2.2 e he).2
  split at hsome
  · rename_i n hn
    exact ⟨n,hn,hsome⟩
  · exact absurd hsome id

/-- The vector's channels with events are the ready ones. -/
private theorem Agree.found_perm (hpos : ∀ c, 0 ≤ fd c) (hfd : Function.Injective fd) (h : Agree fd w s t)
    {ready : List (ι × BitVec 16)} (ha : w.Answers ready) :
    (found t.mpChannels (t.pollFds.map fun pfd => { pfd with revents := revents fd ready pfd })).Perm (ready.map Prod.fst) := by
  refine (List.perm_ext_iff_of_nodup ?_ ha.2.1).mpr fun d => ?_
  · refine List.pairwise_filterMap.mpr (List.pairwise_map.mpr (List.pairwise_iff_getElem.mpr fun i j hi hj hij => ?_))
    intro c hc d hd hcd
    obtain ⟨-,hc⟩ := Option.ite_none_left_eq_some.mp hc
    obtain ⟨-,hd⟩ := Option.ite_none_left_eq_some.mp hd
    -- a channel under two positions would have two indices
    have hplace : ∀ (k : Nat) (hk : k < t.pollFds.length), t.mpChannels t.pollFds[k].fd = some c → (t.channels c).nIndex = k := by
      intro k hk hmap
      obtain ⟨o,-,hindex,-,hor⟩ := h.poller.place hk
      have hown := h.poller.listed _ _ hmap
      have hp := hpos c
      have hp' := hpos o
      have hsame : fd o = fd c := by omega
      rwa [← hfd hsame]
    have hci := hplace i hi hc
    have hcj := hplace j hj (by rw [hcd]; exact hd)
    omega
  · simp only [found,List.mem_filterMap,List.mem_map]
    constructor
    · rintro ⟨-,⟨pfd,-,rfl⟩,hd⟩
      obtain ⟨hevents,hmap⟩ := Option.ite_none_left_eq_some.mp hd
      obtain ⟨c,hc,hfdc⟩ := revents_ne_zero hevents
      have hown : fd c = fd d := hfdc.trans (h.poller.listed _ _ hmap)
      rw [← hfd hown]
      exact List.mem_map.mp hc
    · rintro ⟨e,he,rfl⟩
      obtain ⟨n,hw,hsome⟩ := ha.interest he
      have hold := h.standing e.1
      rw [hw] at hold
      obtain ⟨-,hreg,-,hmask⟩ := hold
      have hwatch := ((h.exact e.1 hreg).watched (by rw [Channel.isNoneEvent,hmask]; exact hsome)).1
      obtain ⟨h0,hlt⟩ := h.poller.index e.1 hreg
      have hin : Poller.pollFd t e.1 ∈ t.pollFds := by
        rw [Poller.pollFd,Poller.pollFdAt,List.getD_eq_getElem _ _ (by omega)]
        exact List.getElem_mem _
      refine ⟨_,⟨Poller.pollFd t e.1,hin,rfl⟩,?_⟩
      have hevents : revents fd ready (Poller.pollFd t e.1) ≠ 0 := by
        rw [revents_eq hfd ready hwatch.symm,readyFor_mem ha.2.1 he]
        intro hzero
        have hpositive := (ha.2.2 e he).1
        rw [hzero] at hpositive
        exact absurd hpositive (by decide)
      rw [if_neg hevents,hwatch]
      exact hreg

private theorem Agree.epoller_poll (hfd : Function.Injective fd) (h : Agree fd w s t)
    {ready : List (ι × BitVec 16)} (ha : w.Answers ready) :
    ∃ s', EPoller.poll fd (.ok (ready.map fun e => (e.1,e.2.signExtend 32))) s = .ok s' ∧ EPoller.Inv fd s' ∧
      s'.unEvents = (if ready.length = w.room then 2 * w.room else w.room) ∧ s'.activeChannels = ready.map Prod.fst ∧
      ∀ d, (s'.channels d).nREvents =
        if d ∈ ready.map Prod.fst then (readyFor ready d).signExtend 32 else (s.channels d).nREvents := by
  have hkeys : (ready.map fun e => (e.1,e.2.signExtend 32)).map Prod.fst = ready.map Prod.fst := by
    rw [List.map_map]
    rfl
  have hallowed : EPoller.Allowed fd s (.poll (.ok (ready.map fun e => (e.1,e.2.signExtend 32)))) := by
    refine ⟨by rw [List.length_map,h.room]; exact ha.1,fun event hevent => ?_⟩
    obtain ⟨e,he,rfl⟩ := List.mem_map.mp hevent
    obtain ⟨n,hw,hsome⟩ := ha.interest he
    have hold := h.standing e.1
    rw [hw] at hold
    have hin : s.kernel (fd e.1) ≠ none :=
      (h.watched.own hfd e.1).mpr (by rw [Channel.isNoneEvent,hold.2.2.1]; exact hsome)
    obtain ⟨entry,hentry⟩ := Option.ne_none_iff_exists'.mp hin
    exact ⟨fd e.1,_,hentry.trans (congrArg some ((h.epoller.settled e.1).2 entry hentry))⟩
  obtain ⟨s',hrun,hinv⟩ := EPoller.inv_step hfd h.epoller hallowed
  refine ⟨s',hrun,hinv,?_⟩
  have hpoll : EPoller.poll fd (.ok (ready.map fun e => (e.1,e.2.signExtend 32))) s = .ok s' := hrun
  simp only [EPoller.poll,List.length_map] at hpoll
  split at hpoll
  · simp only [EPoller.fillActiveChannels,bind_ok_iff,Except.ok.injEq] at hpoll
    obtain ⟨u,⟨-,-,hfill⟩,rfl⟩ := hpoll
    have hg : ∀ event ∈ ready.map (fun e => (e.1,e.2.signExtend 32)), event.2 = (readyFor ready event.1).signExtend 32 := by
      intro event hevent
      obtain ⟨e,he,rfl⟩ := List.mem_map.mp hevent
      exact congrArg (BitVec.signExtend 32) (readyFor_mem ha.2.1 he).symm
    obtain ⟨hroom,hactive,hreported⟩ := epoller_fill (g := fun c => (readyFor ready c).signExtend 32) hg hfill
    rw [hkeys] at hactive hreported
    have hwatch : u.unEvents = w.room := hroom.trans h.room
    rw [hwatch]
    refine ⟨?_,?_,fun d => ?_⟩
    · split
      · rfl
      · exact hwatch
    · split <;> exact hactive
    · split <;> exact hreported d
  · rename_i hlength
    cases hpoll
    obtain rfl : ready = [] := List.length_eq_zero_iff.mp (by omega)
    refine ⟨?_,rfl,fun d => (if_neg List.not_mem_nil).symm⟩
    rw [h.room]
    split
    · rename_i hzero
      rw [← hzero]
      rfl
    · rfl

private theorem Agree.poller_poll (hpos : ∀ c, 0 ≤ fd c) (hfd : Function.Injective fd) (h : Agree fd w s t)
    {ready : List (ι × BitVec 16)} (ha : w.Answers ready) :
    ∃ t', Poller.poll fd (.ok (t.pollFds.map (revents fd ready))) t = .ok t' ∧ Poller.Same t t' ∧
      t'.activeChannels.Perm (ready.map Prod.fst) ∧
      ∀ d, (t'.channels d).nREvents =
        if d ∈ ready.map Prod.fst then (readyFor ready d).signExtend 32 else (t.channels d).nREvents := by
  have hallowed : Poller.Allowed fd t (.poll (.ok (t.pollFds.map (revents fd ready)))) := by
    refine ⟨List.length_map _,fun p hp hneg => ?_⟩
    have hzip : t.pollFds.zip (t.pollFds.map (revents fd ready)) = t.pollFds.map fun pfd => (pfd,revents fd ready pfd) := by
      simpa only [List.map_id,id] using List.zip_map' (f := id) (g := revents fd ready) (l := t.pollFds)
    rw [hzip] at hp
    obtain ⟨pfd,-,rfl⟩ := List.mem_map.mp hp
    by_contra hevents
    obtain ⟨c,-,hc⟩ := revents_ne_zero hevents
    exact absurd (hc ▸ hpos c) (not_le.mpr hneg)
  obtain ⟨t',hrun,hsame⟩ := Poller.poll_ok hpos h.poller hallowed
  refine ⟨t',hrun,hsame,?_⟩
  let l := t.pollFds.map fun pfd => { pfd with revents := revents fd ready pfd }
  have hl : List.zipWith (fun (pfd : Poller.PollFd) r => { pfd with revents := r }) t.pollFds (t.pollFds.map (revents fd ready)) = l := by
    rw [List.zipWith_map_right,List.zipWith_self]
  have hcount : (t.pollFds.map (revents fd ready)).countP (· ≠ 0) = l.countP (·.revents ≠ 0) := by
    rw [List.countP_map,List.countP_map]
    rfl
  have hg : ∀ pfd ∈ l, pfd.revents ≠ 0 → 0 < pfd.revents.toInt ∧
      ∃ d, t.mpChannels pfd.fd = some d ∧ fd d = pfd.fd ∧ pfd.revents = readyFor ready d := by
    intro pfd hpfd hevents
    obtain ⟨p,hp,rfl⟩ := List.mem_map.mp hpfd
    obtain ⟨c,hc,hfdc⟩ := revents_ne_zero hevents
    obtain ⟨e,he,rfl⟩ := List.mem_map.mp hc
    have hr := revents_eq hfd ready hfdc
    obtain ⟨n,hw,-⟩ := ha.interest he
    have hold := h.standing e.1
    rw [hw] at hold
    refine ⟨?_,e.1,?_,hfdc,hr⟩
    · change 0 < (revents fd ready p).toInt
      rw [hr,readyFor_mem ha.2.1 he]
      exact (ha.2.2 e he).1
    · rw [← hfdc]
      exact hold.2.1
  obtain ⟨u,hu,hactive,hreported⟩ := @poller_fill ι _ fd { t with activeChannels := [], pollFds := l } (readyFor ready) l hg
  simp only [Poller.poll,hl,hcount] at hrun
  cases hrun.symm.trans hu
  have hperm := h.found_perm hpos hfd ha
  refine ⟨by rw [hactive]; exact hperm,fun d => ?_⟩
  rw [hreported d]
  exact if_congr hperm.mem_iff rfl rfl

private theorem Agree.poll (hpos : ∀ c, 0 ≤ fd c) (hfd : Function.Injective fd) (h : Agree fd w s t)
    {ready : List (ι × BitVec 16)} (ha : w.Answers ready) {v : Watch ι} (hv : w.poll (.ok ready) = .ok v) :
    ∃ s' t', EPoller.poll fd (.ok (ready.map fun e => (e.1,e.2.signExtend 32))) s = .ok s' ∧
      Poller.poll fd (.ok (t.pollFds.map (revents fd ready))) t = .ok t' ∧ Agree fd v s' t' := by
  obtain ⟨s',hs,hinv,hroom,hactive,hreported⟩ := h.epoller_poll hfd ha
  obtain ⟨t',ht,hsame,hperm,hreported'⟩ := h.poller_poll hpos hfd ha
  have hkept := EPoller.same_poll hs
  rw [Watch.poll,ensure_of _ ha,ok_bind] at hv
  cases hv
  refine ⟨s',t',hs,ht,hinv,EPoller.poll_watched h.watched hs,hsame.inv h.poller,hsame.exact h.exact,fun c => ?_,hroom,
    ⟨hactive,hperm⟩,fun c => ?_⟩
  · have hold := h.standing c
    simp only
    cases hw : w.standing c with
    | fresh =>
      rw [hw] at hold
      rw [Standing.Shows,Channel.isNoneEvent,Channel.isNoneEvent,hkept.mpChannel,hkept.nEvents,hsame.index,hsame.mask]
      exact hold
    | registered n =>
      rw [hw] at hold
      rw [Standing.Shows,Poller.Registered,hkept.mpChannel,hkept.nEvents,hsame.mpChannels,hsame.mask]
      exact hold
    | removed =>
      rw [hw] at hold
      rw [Standing.Shows,Poller.Registered,hkept.mpChannel,hsame.mpChannels]
      exact hold
  · simp only
    rw [hreported,hreported',(h.reported c).1,(h.reported c).2]
    exact ⟨rfl,rfl⟩

/-! Runs. -/

omit [DecidableEq ι] in
private theorem agree_init : Agree fd Watch.init EPoller.init Poller.init where
  epoller := EPoller.inv_init
  watched := EPoller.watched_init
  poller := Poller.inv_init
  exact _ hr := by cases hr
  standing _ := ⟨rfl,Int.negSucc_lt_zero 0,rfl,rfl⟩
  room := rfl
  active := ⟨rfl,.refl _⟩
  reported _ := ⟨rfl,rfl⟩

omit [DecidableEq ι] in
/-- A mask that Enable and Disable can make: reading, writing or both. -/
private theorem Agree.mask_lt (h : Agree fd w s t) {n : BitVec 32} (hw : w.standing c = .registered n) : n.toNat < 8 := by
  have hold := h.standing c
  rw [hw] at hold
  rw [← hold.2.2.2]
  exact h.poller.mask c

private theorem Agree.enable (hpos : ∀ c, 0 ≤ fd c) (hfd : Function.Injective fd) (h : Agree fd w s t) {events : BitVec 32}
    (hlt : events.toNat < 8) (hsome : events ≠ Channel.noneEvent) {v : Watch ι} (hv : w.enable c events = .ok v) :
    ∃ s' t', EPoller.updateChannel fd c (EPoller.setEvents s c ((s.channels c).nEvents ||| events)) = .ok s' ∧
      Poller.updateChannel fd c (Poller.setEvents t c ((t.channels c).nEvents ||| events)) = .ok t' ∧ Agree fd v s' t' := by
  have hold := h.standing c
  unfold Watch.enable at hv
  split at hv
  · rename_i hw
    rw [hw] at hold
    obtain ⟨-,-,hs,ht⟩ := hold
    cases hv
    have hor : Channel.noneEvent ||| events = events := BitVec.zero_or
    rw [show (s.channels c).nEvents = Channel.noneEvent from hs,show (t.channels c).nEvents = Channel.noneEvent from ht,hor]
    exact h.set hpos hfd hlt (.inl ⟨hw,hsome⟩)
  · rename_i n hw
    rw [hw] at hold
    obtain ⟨-,-,hs,ht⟩ := hold
    simp only [bind_ok_iff,ensure_ok_iff,Except.ok.injEq] at hv
    obtain ⟨-,hn,rfl⟩ := hv
    rw [hs,ht]
    exact h.set hpos hfd (Poller.or_lt (h.mask_lt hw) hlt) (.inr ⟨n,hw,hn⟩)
  · cases hv

private theorem Agree.disable (hpos : ∀ c, 0 ≤ fd c) (hfd : Function.Injective fd) (h : Agree fd w s t) {keep : BitVec 32}
    {v : Watch ι} (hv : w.disable c keep = .ok v) :
    ∃ s' t', EPoller.updateChannel fd c (EPoller.setEvents s c ((s.channels c).nEvents &&& keep)) = .ok s' ∧
      Poller.updateChannel fd c (Poller.setEvents t c ((t.channels c).nEvents &&& keep)) = .ok t' ∧ Agree fd v s' t' := by
  have hold := h.standing c
  unfold Watch.disable at hv
  split at hv
  · rename_i n hw
    rw [hw] at hold
    obtain ⟨-,-,hs,ht⟩ := hold
    simp only [bind_ok_iff,ensure_ok_iff,Except.ok.injEq] at hv
    obtain ⟨-,hn,rfl⟩ := hv
    rw [hs,ht]
    exact h.set hpos hfd (Poller.and_lt keep (h.mask_lt hw)) (.inr ⟨n,hw,hn⟩)
  · cases hv

/-- Each call of the abstract poller is taken by both, which stay what it is. -/
private theorem Agree.step (hpos : ∀ c, 0 ≤ fd c) (hfd : Function.Injective fd) (h : Agree fd w s t) {call : Call ι}
    {v : Watch ι} (hv : w.step call = .ok v) :
    ∃ p, (both fd).step (s,t) call = .ok p ∧ Agree fd v p.1 p.2 := by
  have htake : ∀ {s' t'}, EPoller.step fd s call.toEPoller = .ok s' → Poller.step fd t (call.toPoller fd t) = .ok t' →
      Agree fd v s' t' → ∃ p, (both fd).step (s,t) call = .ok p ∧ Agree fd v p.1 p.2 := by
    intro s' t' hs ht hagree
    refine ⟨(s',t'),?_,hagree⟩
    simp only [both,hs,ht,ok_bind]
  cases call with
  | enableReading c =>
    obtain ⟨s',t',hs,ht,hagree⟩ := h.enable hpos hfd (by decide) (by decide) hv
    exact htake hs ht hagree
  | enableWriting c =>
    obtain ⟨s',t',hs,ht,hagree⟩ := h.enable hpos hfd (by decide) (by decide) hv
    exact htake hs ht hagree
  | disableWriting c =>
    obtain ⟨s',t',hs,ht,hagree⟩ := h.disable hpos hfd hv
    exact htake hs ht hagree
  | disableAll c =>
    obtain ⟨s',t',hs,ht,hagree⟩ := h.disable hpos hfd hv
    have hand : ∀ n : BitVec 32, n &&& 0 = Channel.noneEvent := fun n => BitVec.and_zero
    rw [hand] at hs ht
    exact htake hs ht hagree
  | removeChannel c =>
    simp only [Watch.step,Watch.remove] at hv
    split at hv
    · rename_i n hw
      simp only [bind_ok_iff,ensure_ok_iff,Except.ok.injEq] at hv
      obtain ⟨-,rfl,rfl⟩ := hv
      obtain ⟨s',t',hs,ht,hagree⟩ := h.remove hpos hfd hw
      exact htake hs ht hagree
    · cases hv
  | poll answer =>
    cases answer with
    | error nErrno =>
      cases hv
      refine htake rfl rfl ⟨⟨h.epoller.settled,h.epoller.stray,h.epoller.refused⟩,h.watched,?_,fun c hr => ?_,h.standing,
        h.room,⟨rfl,.refl _⟩,h.reported⟩
      · exact ⟨h.poller.listed,h.poller.index,h.poller.fd_or,h.poller.events,h.poller.owner,h.poller.mask,h.poller.fresh⟩
      · have hexact := h.exact c hr
        exact ⟨hexact.watched,hexact.ignored,hexact.removable⟩
    | ok ready =>
      have ha : w.Answers ready := by
        simp only [Watch.step,Watch.poll,bind_ok_iff,ensure_ok_iff] at hv
        exact hv.choose_spec.1
      obtain ⟨s',t',hs,ht,hagree⟩ := h.poll hpos hfd ha hv
      exact htake hs ht hagree

private theorem Agree.run (hpos : ∀ c, 0 ≤ fd c) (hfd : Function.Injective fd) (h : Agree fd w s t) {calls : List (Call ι)}
    {v : Watch ι} (hv : Watch.machine.run w calls = .ok v) :
    ∃ p, (both fd).run (s,t) calls = .ok p ∧ Agree fd v p.1 p.2 := by
  induction calls generalizing w s t with
  | nil =>
    cases hv
    exact ⟨(s,t),rfl,h⟩
  | cons call calls ih =>
    obtain ⟨u,hu,hv⟩ := (bind_ok_iff _ _ _).mp hv
    obtain ⟨p,hp,hagree⟩ := h.step hpos hfd hu
    obtain ⟨q,hq,hagree'⟩ := ih hagree hv
    refine ⟨q,?_,hagree'⟩
    rw [Machine.run_cons]
    exact (bind_ok_iff _ _ _).mpr ⟨p,hp,hq⟩

omit [DecidableEq ι] in
/-- The epoll set is the channels with interest. -/
private theorem Agree.kernel_iff (hfd : Function.Injective fd) (h : Agree fd w s t) (n : Int) (m : BitVec 32) (c : ι) :
    s.kernel n = some (m,c) ↔ n = fd c ∧ w.standing c = .registered m ∧ m ≠ Channel.noneEvent := by
  constructor
  · intro hk
    have hfdc : n = fd c := by
      by_contra hne
      by_cases hn : ∃ d, fd d = n
      · obtain ⟨d,rfl⟩ := hn
        have hd := congrArg Prod.snd ((h.epoller.settled d).2 _ hk)
        exact hne (by rw [show c = d from hd])
      · have hstray := (h.epoller.stray n fun d hd => hn ⟨d,hd⟩).2
        cases hstray.symm.trans hk
    subst hfdc
    have hin : s.kernel (fd c) ≠ none := by
      rw [hk]
      exact Option.some_ne_none _
    have hsome := (h.watched.own hfd c).mp hin
    have hm : m = (s.channels c).nEvents := congrArg Prod.fst ((h.epoller.settled c).2 _ hk)
    have hold := h.standing c
    cases hw : w.standing c with
    | fresh =>
      rw [hw] at hold
      exact absurd (h.epoller.absent hold.1) hin
    | registered k =>
      rw [hw] at hold
      have hkm : k = m := hold.2.2.1.symm.trans hm.symm
      exact ⟨rfl,by rw [hkm],by rw [hm]; exact hsome⟩
    | removed =>
      rw [hw] at hold
      exact absurd (h.epoller.absent hold.1) hin
  · rintro ⟨rfl,hw,hsome⟩
    have hold := h.standing c
    rw [hw] at hold
    have hmask : (s.channels c).nEvents = m := hold.2.2.1
    have hin : s.kernel (fd c) ≠ none :=
      (h.watched.own hfd c).mpr (by rw [Channel.isNoneEvent,hmask]; exact hsome)
    obtain ⟨e,he⟩ := Option.ne_none_iff_exists'.mp hin
    rw [he,(h.epoller.settled c).2 e he,hmask]

omit [DecidableEq ι] in
/-- The pollfds that poll looks at are the channels with interest. -/
private theorem Agree.pollFds_iff (hpos : ∀ c, 0 ≤ fd c) (h : Agree fd w s t) (n : Int) (m : BitVec 32) :
    (∃ pfd ∈ t.pollFds, pfd.fd = n ∧ 0 ≤ n ∧ pfd.events.signExtend 32 = m) ↔
      ∃ c, n = fd c ∧ w.standing c = .registered m ∧ m ≠ Channel.noneEvent := by
  constructor
  · rintro ⟨pfd,hpfd,hn,h0,hm⟩
    obtain ⟨i,hi,rfl⟩ := List.mem_iff_getElem.mp hpfd
    obtain ⟨c,hr,-,hpoll,hor⟩ := h.poller.place hi
    have hp := hpos c
    have hexact := h.exact c hr
    have hfdc : n = fd c := by omega
    have hmask : (t.channels c).nEvents = m := by rw [← hm,← hpoll]; exact (h.poller.events c hr).symm
    have hsome : ¬ (t.channels c).isNoneEvent := by
      intro hnone
      have hneg := hexact.ignored hnone
      rw [hpoll,hn] at hneg
      omega
    have hold := h.standing c
    refine ⟨c,hfdc,?_,by rw [← hmask]; exact hsome⟩
    cases hw : w.standing c with
    | fresh =>
      rw [hw] at hold
      exact absurd (h.poller.index c hr).1 (not_le.mpr hold.2.1)
    | registered k =>
      rw [hw] at hold
      rw [← hold.2.2.2,hmask]
    | removed =>
      rw [hw] at hold
      exact absurd hr hold.2
  · rintro ⟨c,rfl,hw,hsome⟩
    have hold := h.standing c
    rw [hw] at hold
    obtain ⟨-,hr,-,hmask⟩ := hold
    obtain ⟨hown,hevents⟩ := (h.exact c hr).watched (by rw [Channel.isNoneEvent,hmask]; exact hsome)
    obtain ⟨h0,hlt⟩ := h.poller.index c hr
    have hin : Poller.pollFd t c ∈ t.pollFds := by
      rw [Poller.pollFd,Poller.pollFdAt,List.getD_eq_getElem _ _ (by omega)]
      exact List.getElem_mem _
    exact ⟨_,hin,hown,hpos c,hevents.trans hmask⟩

/-- On every run of the abstract poller both pollers take all calls, with every assertion,
and at its end: the epoll set and the pollfds that poll looks at are both the registered
channels with interest, with their masks; the last poll found the same channels; and every
channel was told the same events. -/
theorem pollers_agree (hpos : ∀ c, 0 ≤ fd c) (hfd : Function.Injective fd) {calls : List (Call ι)} {w : Watch ι}
    (h : Watch.machine.run Watch.init calls = .ok w) :
    ∃ s t, (both fd).run (EPoller.init,Poller.init) calls = .ok (s,t) ∧
      (∀ n m c, s.kernel n = some (m,c) ↔ n = fd c ∧ w.standing c = .registered m ∧ m ≠ Channel.noneEvent) ∧
      (∀ n m, (∃ pfd ∈ t.pollFds, pfd.fd = n ∧ 0 ≤ n ∧ pfd.events.signExtend 32 = m) ↔
        ∃ c, n = fd c ∧ w.standing c = .registered m ∧ m ≠ Channel.noneEvent) ∧
      s.activeChannels = w.active ∧ t.activeChannels.Perm w.active ∧
      ∀ c, (s.channels c).nREvents = w.reported c ∧ (t.channels c).nREvents = w.reported c := by
  obtain ⟨⟨s,t⟩,hrun,hagree⟩ := agree_init.run hpos hfd h
  exact ⟨s,t,hrun,hagree.kernel_iff hfd,hagree.pollFds_iff hpos,hagree.active.1,hagree.active.2,hagree.reported⟩

/-- Two channels become readable, the one registered later first in epoll_wait's answer. -/
theorem pollers_agree_two : ∃ s t,
    (both EPoller.twoFds).run (EPoller.init,Poller.init) [.enableReading false,.enableReading true,
      .poll (.ok [(true,1),(false,1)]),.enableWriting true,.disableAll false,.removeChannel false] = .ok (s,t) ∧
    s.activeChannels = [true,false] ∧ t.activeChannels.Perm [true,false] := by
  obtain ⟨w,hw,hactive⟩ := Watch.machine.exists_run_eq [Call.enableReading false,.enableReading true,
    .poll (.ok [(true,1),(false,1)]),.enableWriting true,.disableAll false,.removeChannel false]
    (fun w => w.active) (s := Watch.init) (b := [true,false]) (by decide +kernel)
  have hpos : ∀ c, 0 ≤ EPoller.twoFds c := by decide
  obtain ⟨s,t,hrun,-,-,hs,ht,-⟩ := pollers_agree hpos (by decide) hw
  rw [hactive] at hs ht
  exact ⟨s,t,hrun,hs,ht⟩

end LinuxServer.Reactor.Pollers
