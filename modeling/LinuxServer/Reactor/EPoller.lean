import LinuxServer.Lib.Machine

/-! The poller's three views of a channel: the index in the channel, the map by
descriptor and the kernel's epoll set. -/
namespace LinuxServer.Reactor.EPoller
open LinuxServer.Lib

structure Channel where
  nEvents : BitVec 32
  nREvents : BitVec 32
  nIndex : Int
  deriving DecidableEq,Repr

namespace Channel

def noneEvent : BitVec 32 := 0
/-- POLLIN and POLLPRI. -/
def readEvent : BitVec 32 := 3
def writeEvent : BitVec 32 := 4

def isNoneEvent (c : Channel) : Prop := c.nEvents = noneEvent
instance (c : Channel) : Decidable c.isNoneEvent := inferInstanceAs (Decidable (_ = _))

end Channel

def new : Int := -1
def added : Int := 1
def deleted : Int := 2
def initEventListSize : Nat := 16

inductive Operation where
  | add
  | mod
  | del
  deriving DecidableEq,Repr

/-- A descriptor's entry in the kernel: the mask, and the channel in the data pointer. -/
abbrev Entry (ι : Type) := BitVec 32 × ι

structure State (ι : Type) where
  channels : ι → Channel
  mpChannel : Int → Option ι
  /-- m_vEvents.size(). -/
  unEvents : Nat
  /-- The list that the last call of Poll filled. -/
  activeChannels : List ι
  /-- The epoll set, and the calls of epoll_ctl that went on after an error. -/
  kernel : Int → Option (Entry ι)
  refused : List (Operation × Int)

variable {ι : Type} [DecidableEq ι]

/-- epoll_ctl adds what is absent, and changes and deletes what is present. -/
def epollCtl (kernel : Int → Option (Entry ι)) (nOperation : Operation) (nFd : Int) (event : Entry ι) :
    Option (Int → Option (Entry ι)) :=
  match nOperation, kernel nFd with
  | .add, none => some (Function.update kernel nFd (some event))
  | .mod, some _ => some (Function.update kernel nFd (some event))
  | .del, some _ => some (Function.update kernel nFd none)
  | _, _ => none

def init : State ι := ⟨fun _ => ⟨Channel.noneEvent,0,-1⟩,fun _ => none,initEventListSize,[],fun _ => none,[]⟩

-- the channels are given with their descriptors, which they keep
variable (fd : ι → Int)

def setEvents (s : State ι) (c : ι) (nEvents : BitVec 32) : State ι :=
  { s with channels := Function.update s.channels c { s.channels c with nEvents := nEvents } }
def setREvents (s : State ι) (c : ι) (nEvent : BitVec 32) : State ι :=
  { s with channels := Function.update s.channels c { s.channels c with nREvents := nEvent } }
def setIndex (s : State ι) (c : ι) (nIndex : Int) : State ι :=
  { s with channels := Function.update s.channels c { s.channels c with nIndex := nIndex } }

/-- A call that fails is fatal, unless it was to delete. -/
def update (nOperation : Operation) (c : ι) (s : State ι) : Except Halt (State ι) :=
  match epollCtl s.kernel nOperation (fd c) ((s.channels c).nEvents,c) with
  | some kernel => .ok { s with kernel := kernel }
  | none =>
    if nOperation = .del then .ok { s with refused := s.refused ++ [(nOperation,fd c)] }
    else .error (.fatal "epoll_ctl")

/-- Take a new channel into the map; one that was deleted from the epoll set is still there. -/
def register (c : ι) (s : State ι) : Except Halt (State ι) :=
  if new = (s.channels c).nIndex then do
    ensure (.assertion "m_mpChannel.find(nFd) == m_mpChannel.end()") (s.mpChannel (fd c) = none)
    .ok { s with mpChannel := Function.update s.mpChannel (fd c) (some c) }
  else do
    ensure (.assertion "m_mpChannel.find(nFd) != m_mpChannel.end()") (s.mpChannel (fd c) ≠ none)
    ensure (.assertion "m_mpChannel[nFd] == pChannel") (s.mpChannel (fd c) = some c)
    .ok s

def modify (c : ι) (s : State ι) : Except Halt (State ι) :=
  if (s.channels c).isNoneEvent then do
    let s₁ ← update fd .del c s
    .ok (setIndex s₁ c deleted)
  else update fd .mod c s

def updateChannel (c : ι) (s : State ι) : Except Halt (State ι) :=
  let nIndex := (s.channels c).nIndex
  if new = nIndex ∨ deleted = nIndex then do
    let s₁ ← register fd c s
    update fd .add c (setIndex s₁ c added)
  else do
    ensure (.assertion "m_mpChannel.find(nFd) != m_mpChannel.end()") (s.mpChannel (fd c) ≠ none)
    ensure (.assertion "m_mpChannel[nFd] == pChannel") (s.mpChannel (fd c) = some c)
    ensure (.assertion "ADDED == nIndex") (added = nIndex)
    modify fd c s

/-- Leave the epoll set, when the channel is in it. -/
def leave (c : ι) (nIndex : Int) (s : State ι) : Except Halt (State ι) :=
  if added = nIndex then update fd .del c s else .ok s

def removeChannel (c : ι) (s : State ι) : Except Halt (State ι) := do
  ensure (.assertion "m_mpChannel.find(nFd) != m_mpChannel.end()") (s.mpChannel (fd c) ≠ none)
  ensure (.assertion "m_mpChannel[nFd] == pChannel") (s.mpChannel (fd c) = some c)
  ensure (.assertion "pChannel->IsNoneEvent()") (s.channels c).isNoneEvent
  let nIndex := (s.channels c).nIndex
  ensure (.assertion "ADDED == nIndex || DELETED == nIndex") (added = nIndex ∨ deleted = nIndex)
  ensure (.assertion "1 == n") ((s.mpChannel (fd c)).toList.length = 1)
  let s₁ ← leave fd c nIndex { s with mpChannel := Function.update s.mpChannel (fd c) none }
  .ok (setIndex s₁ c new)

/-- One event of epoll_wait: the data pointer and the mask. -/
def fillActiveChannel (s : State ι) (event : ι × BitVec 32) : Except Halt (State ι) := do
  let c := event.1
  ensure (.assertion "itor != m_mpChannel.end()") (s.mpChannel (fd c) ≠ none)
  ensure (.assertion "itor->second == pChannel") (s.mpChannel (fd c) = some c)
  let s₁ := setREvents s c event.2
  .ok { s₁ with activeChannels := s₁.activeChannels ++ [c] }

def fillActiveChannels (s : State ι) (events : List (ι × BitVec 32)) : Except Halt (State ι) := do
  ensure (.assertion "static_cast<size_t>(nNumEvents) <= m_vEvents.size()") (events.length ≤ s.unEvents)
  events.foldlM (fillActiveChannel fd) s

/-- Poll, with the events that epoll_wait stored or its error, which is only logged.
The loop has cleared the list of active channels. -/
def poll (answer : Except Int (List (ι × BitVec 32))) (s : State ι) : Except Halt (State ι) :=
  let s₀ := { s with activeChannels := [] }
  match answer with
  | .error _ => .ok s₀
  | .ok events =>
    if 0 < events.length then do
      let s₁ ← fillActiveChannels fd s₀ events
      .ok (if events.length = s₁.unEvents then { s₁ with unEvents := 2 * s₁.unEvents } else s₁)
    else .ok s₀

inductive Call (ι : Type) where
  | enableReading (c : ι)
  | enableWriting (c : ι)
  | disableWriting (c : ι)
  | disableAll (c : ι)
  | removeChannel (c : ι)
  | poll (answer : Except Int (List (ι × BitVec 32)))

def step (s : State ι) : Call ι → Except Halt (State ι)
  | .enableReading c => updateChannel fd c (setEvents s c ((s.channels c).nEvents ||| Channel.readEvent))
  | .enableWriting c => updateChannel fd c (setEvents s c ((s.channels c).nEvents ||| Channel.writeEvent))
  | .disableWriting c => updateChannel fd c (setEvents s c ((s.channels c).nEvents &&& ~~~Channel.writeEvent))
  | .disableAll c => updateChannel fd c (setEvents s c Channel.noneEvent)
  | .removeChannel c => removeChannel fd c s
  | .poll answer => poll fd answer s

def machine : Machine (State ι) (Call ι) Halt := ⟨fun s => s = init,step fd⟩

/-- A channel is removed when it is registered and has no interest, and epoll_wait answers
with pointers that are in the epoll set, no more than there is room for. -/
def Allowed (s : State ι) : Call ι → Prop
  | .removeChannel c => s.mpChannel (fd c) = some c ∧ (s.channels c).isNoneEvent
  | .poll (.ok events) => events.length ≤ s.unEvents ∧ ∀ event ∈ events, ∃ nFd mask, s.kernel nFd = some (mask,event.1)
  | _ => True

/-- What each of the views says of a channel. -/
structure Agree (s : State ι) (c : ι) : Prop where
  new_iff : (s.channels c).nIndex = new ↔ ∀ nFd, s.mpChannel nFd ≠ some c
  added_iff : (s.channels c).nIndex = added ↔ s.kernel (fd c) ≠ none
  kernel_eq : ∀ e, s.kernel (fd c) = some e → e = ((s.channels c).nEvents,c)

/-! One call changes one channel. -/

/-- Where a channel is in its life, whatever mask the kernel has for it. -/
def Tracked (s : State ι) (c : ι) : Prop :=
  ((s.channels c).nIndex = new ∧ s.mpChannel (fd c) = none ∧ s.kernel (fd c) = none) ∨
    ((s.channels c).nIndex = added ∧ s.mpChannel (fd c) = some c ∧ ∃ mask, s.kernel (fd c) = some (mask,c)) ∨
    ((s.channels c).nIndex = deleted ∧ s.mpChannel (fd c) = some c ∧ s.kernel (fd c) = none)

/-- The kernel's mask is the channel's own. -/
def Settled (s : State ι) (c : ι) : Prop :=
  Tracked fd s c ∧ ∀ e, s.kernel (fd c) = some e → e = ((s.channels c).nEvents,c)

/-- Nothing but the channel and what is kept under its descriptor has changed. -/
structure Frame (c : ι) (s t : State ι) : Prop where
  channels : ∀ d, d ≠ c → t.channels d = s.channels d
  mpChannel : ∀ n, n ≠ fd c → t.mpChannel n = s.mpChannel n
  kernel : ∀ n, n ≠ fd c → t.kernel n = s.kernel n
  refused : t.refused = s.refused

variable {fd} {s t u : State ι} {c : ι}

omit [DecidableEq ι] in
theorem Frame.trans (h : Frame fd c s t) (h' : Frame fd c t u) : Frame fd c s u where
  channels d hd := (h'.channels d hd).trans (h.channels d hd)
  mpChannel n hn := (h'.mpChannel n hn).trans (h.mpChannel n hn)
  kernel n hn := (h'.kernel n hn).trans (h.kernel n hn)
  refused := h'.refused.trans h.refused

theorem frame_setEvents (nEvents : BitVec 32) : Frame fd c s (setEvents s c nEvents) :=
  ⟨fun _ hd => Function.update_of_ne hd _ _,fun _ _ => rfl,fun _ _ => rfl,rfl⟩
private theorem frame_setIndex (nIndex : Int) : Frame fd c s (setIndex s c nIndex) :=
  ⟨fun _ hd => Function.update_of_ne hd _ _,fun _ _ => rfl,fun _ _ => rfl,rfl⟩
omit [DecidableEq ι] in
private theorem frame_kernel (e : Option (Entry ι)) :
    Frame fd c s { s with kernel := Function.update s.kernel (fd c) e } :=
  ⟨fun _ _ => rfl,fun _ _ => rfl,fun _ hn => Function.update_of_ne hn _ _,rfl⟩
omit [DecidableEq ι] in
private theorem frame_mpChannel (e : Option ι) :
    Frame fd c s { s with mpChannel := Function.update s.mpChannel (fd c) e } :=
  ⟨fun _ _ => rfl,fun _ hn => Function.update_of_ne hn _ _,fun _ _ => rfl,rfl⟩

theorem tracked_setEvents (nEvents : BitVec 32) (h : Tracked fd s c) :
    Tracked fd (setEvents s c nEvents) c := by
  have hindex : ((setEvents s c nEvents).channels c).nIndex = (s.channels c).nIndex := by
    simp only [setEvents,Function.update_self]
  rw [Tracked,hindex]
  exact h

omit [DecidableEq ι] in
private theorem update_add (h : s.kernel (fd c) = none) : update fd .add c s =
    .ok { s with kernel := Function.update s.kernel (fd c) (some ((s.channels c).nEvents,c)) } := by
  simp only [update,epollCtl,h]
omit [DecidableEq ι] in
private theorem update_mod {e : Entry ι} (h : s.kernel (fd c) = some e) : update fd .mod c s =
    .ok { s with kernel := Function.update s.kernel (fd c) (some ((s.channels c).nEvents,c)) } := by
  simp only [update,epollCtl,h]
omit [DecidableEq ι] in
private theorem update_del {e : Entry ι} (h : s.kernel (fd c) = some e) : update fd .del c s =
    .ok { s with kernel := Function.update s.kernel (fd c) none } := by
  simp only [update,epollCtl,h]

omit [DecidableEq ι] in
private theorem settled_added (hindex : (s.channels c).nIndex = added) (hmap : s.mpChannel (fd c) = some c)
    (hkernel : s.kernel (fd c) = some ((s.channels c).nEvents,c)) : Settled fd s c := by
  refine ⟨.inr (.inl ⟨hindex,hmap,_,hkernel⟩),?_⟩
  intro e he
  exact Option.some.inj (he.symm.trans hkernel)
omit [DecidableEq ι] in
private theorem settled_absent (h : Tracked fd s c) (hkernel : s.kernel (fd c) = none) : Settled fd s c := by
  refine ⟨h,?_⟩
  intro e he
  rw [hkernel] at he
  cases he

/-- A channel that is not in the epoll set enters it. -/
private theorem enter_ok (hmap : s.mpChannel (fd c) = some c) (hkernel : s.kernel (fd c) = none) :
    ∃ t, update fd .add c (setIndex s c added) = .ok t ∧ Frame fd c s t ∧ Settled fd t c := by
  refine ⟨_,update_add hkernel,(frame_setIndex added).trans (frame_kernel _),?_⟩
  apply settled_added
  · simp only [setIndex,Function.update_self]
  · exact hmap
  · exact Function.update_self ..

/-- From any point of its life an update leaves the channel with its views in agreement. -/
theorem updateChannel_ok (h : Tracked fd s c) :
    ∃ t, updateChannel fd c s = .ok t ∧ Frame fd c s t ∧ Settled fd t c := by
  rcases h with ⟨hindex,hmap,hkernel⟩ | ⟨hindex,hmap,mask,hkernel⟩ | ⟨hindex,hmap,hkernel⟩
  · have hregister : register fd c s = .ok { s with mpChannel := Function.update s.mpChannel (fd c) (some c) } := by
      rw [register,if_pos hindex.symm,ensure_of _ hmap,ok_bind]
    have hregistered : State.mpChannel { s with mpChannel := Function.update s.mpChannel (fd c) (some c) } (fd c) = some c :=
      Function.update_self ..
    obtain ⟨t,hrun,hframe,hsettled⟩ := enter_ok hregistered hkernel
    refine ⟨t,?_,(frame_mpChannel _).trans hframe,hsettled⟩
    rw [updateChannel,if_pos (.inl hindex.symm),hregister,ok_bind]
    exact hrun
  · have hpresent : s.mpChannel (fd c) ≠ none := by
      rw [hmap]
      exact Option.some_ne_none c
    have hbranch : ¬ (new = (s.channels c).nIndex ∨ deleted = (s.channels c).nIndex) := by
      rw [hindex]
      decide
    rw [updateChannel,if_neg hbranch,ensure_of _ hpresent,ensure_of _ hmap,ensure_of _ hindex.symm]
    simp only [ok_bind,modify]
    split
    · rw [update_del hkernel,ok_bind]
      refine ⟨_,rfl,(frame_kernel _).trans (frame_setIndex deleted),?_⟩
      apply settled_absent
      · refine .inr (.inr ⟨?_,hmap,Function.update_self ..⟩)
        simp only [setIndex,Function.update_self]
      · exact Function.update_self ..
    · rw [update_mod hkernel]
      exact ⟨_,rfl,frame_kernel _,settled_added hindex hmap (Function.update_self ..)⟩
  · have hpresent : s.mpChannel (fd c) ≠ none := by
      rw [hmap]
      exact Option.some_ne_none c
    have hold : ¬ new = (s.channels c).nIndex := by
      rw [hindex]
      decide
    have hregister : register fd c s = .ok s := by
      rw [register,if_neg hold,ensure_of _ hpresent,ensure_of _ hmap]
      rfl
    obtain ⟨t,hrun,hframe,hsettled⟩ := enter_ok hmap hkernel
    refine ⟨t,?_,hframe,hsettled⟩
    rw [updateChannel,if_pos (.inr hindex.symm),hregister,ok_bind]
    exact hrun

/-- A registered channel without interest leaves all three. -/
theorem removeChannel_ok (h : Tracked fd s c) (hmap : s.mpChannel (fd c) = some c)
    (hnone : (s.channels c).isNoneEvent) :
    ∃ t, removeChannel fd c s = .ok t ∧ Frame fd c s t ∧ Settled fd t c := by
  have hpresent : s.mpChannel (fd c) ≠ none := by
    rw [hmap]
    exact Option.some_ne_none c
  have hone : (s.mpChannel (fd c)).toList.length = 1 := by
    rw [hmap]
    rfl
  have hleave : (added = (s.channels c).nIndex ∨ deleted = (s.channels c).nIndex) ∧
      ∃ t, leave fd c (s.channels c).nIndex { s with mpChannel := Function.update s.mpChannel (fd c) none } = .ok t ∧
        Frame fd c s t ∧ t.mpChannel (fd c) = none ∧ t.kernel (fd c) = none := by
    rcases h with ⟨-,habsent,-⟩ | ⟨hindex,-,mask,hkernel⟩ | ⟨hindex,-,hkernel⟩
    · exact absurd habsent hpresent
    · refine ⟨.inl hindex.symm,_,?_,(frame_mpChannel none).trans (frame_kernel none),Function.update_self ..,
        Function.update_self ..⟩
      rw [leave,if_pos hindex.symm]
      exact update_del hkernel
    · have hout : ¬ added = (s.channels c).nIndex := by
        rw [hindex]
        decide
      refine ⟨.inr hindex.symm,_,if_neg hout,frame_mpChannel none,Function.update_self ..,hkernel⟩
  obtain ⟨hregistered,t,hrun,hframe,hgone,hout⟩ := hleave
  refine ⟨setIndex t c new,?_,hframe.trans (frame_setIndex new),?_⟩
  · simp only [removeChannel,ensure_of _ hpresent,ensure_of _ hmap,ensure_of _ hnone,ensure_of _ hregistered,
      ensure_of _ hone,ok_bind,hrun]
  · apply settled_absent
    · refine .inl ⟨?_,hgone,hout⟩
      simp only [setIndex,Function.update_self]
    · exact hout

/-! All channels together, and the polls in between. -/

variable (fd) in
structure Inv (s : State ι) : Prop where
  settled : ∀ c, Settled fd s c
  /-- Nothing is kept under a descriptor that is no channel's. -/
  stray : ∀ n, (∀ c, fd c ≠ n) → s.mpChannel n = none ∧ s.kernel n = none
  refused : s.refused = []

omit [DecidableEq ι] in
theorem inv_init : Inv fd (init : State ι) where
  settled _ := settled_absent (.inl ⟨rfl,rfl,rfl⟩) rfl
  stray _ _ := ⟨rfl,rfl⟩
  refused := rfl

omit [DecidableEq ι] in
/-- The views of the other channels are where they were. -/
theorem Inv.frame (hfd : Function.Injective fd) (h : Inv fd s) (hframe : Frame fd c s t)
    (hc : Settled fd t c) : Inv fd t where
  settled d := by
    by_cases hd : d = c
    · rw [hd]
      exact hc
    · have hn := hfd.ne hd
      rw [Settled,Tracked,hframe.channels d hd,hframe.mpChannel _ hn,hframe.kernel _ hn]
      exact h.settled d
  stray n hn := by
    rw [hframe.mpChannel n (hn c).symm,hframe.kernel n (hn c).symm]
    exact h.stray n hn
  refused := hframe.refused.trans h.refused

private theorem Inv.updated (hfd : Function.Injective fd) (h : Inv fd s) (c : ι) (nEvents : BitVec 32) :
    ∃ t, updateChannel fd c (setEvents s c nEvents) = .ok t ∧ Inv fd t := by
  obtain ⟨t,hrun,hframe,hsettled⟩ := updateChannel_ok (tracked_setEvents nEvents (h.settled c).1)
  exact ⟨t,hrun,h.frame hfd ((frame_setEvents nEvents).trans hframe) hsettled⟩

omit [DecidableEq ι] in
/-- A data pointer in the epoll set is a channel of the map. -/
private theorem Inv.pointer (h : Inv fd s) {nFd : Int} {e : Entry ι} (he : s.kernel nFd = some e) :
    s.mpChannel (fd e.2) = some e.2 := by
  by_cases hn : ∃ d, fd d = nFd
  · obtain ⟨d,rfl⟩ := hn
    obtain ⟨htracked,hmask⟩ := h.settled d
    rw [hmask e he]
    rcases htracked with ⟨-,-,hkernel⟩ | ⟨-,hmap,-⟩ | ⟨-,-,hkernel⟩
    · cases hkernel.symm.trans he
    · exact hmap
    · cases hkernel.symm.trans he
  · have hstray := (h.stray nFd fun d hd => hn ⟨d,hd⟩).2
    cases hstray.symm.trans he

private theorem Inv.event (hfd : Function.Injective fd) (h : Inv fd s) {event : ι × BitVec 32}
    (he : ∃ nFd mask, s.kernel nFd = some (mask,event.1)) :
    ∃ t, fillActiveChannel fd s event = .ok t ∧ Inv fd t ∧ t.kernel = s.kernel := by
  obtain ⟨nFd,mask,hentry⟩ := he
  have hmap : s.mpChannel (fd event.1) = some event.1 := h.pointer hentry
  have hpresent : s.mpChannel (fd event.1) ≠ none := by
    rw [hmap]
    exact Option.some_ne_none _
  have hsame : (Function.update s.channels event.1 { s.channels event.1 with nREvents := event.2 } event.1) =
      { s.channels event.1 with nREvents := event.2 } := Function.update_self ..
  have hrun : fillActiveChannel fd s event =
      .ok { setREvents s event.1 event.2 with activeChannels := s.activeChannels ++ [event.1] } := by
    rw [fillActiveChannel,ensure_of _ hpresent,ensure_of _ hmap]
    rfl
  refine ⟨_,hrun,?_,rfl⟩
  refine h.frame hfd ⟨fun _ hd => Function.update_of_ne hd _ _,fun _ _ => rfl,fun _ _ => rfl,rfl⟩ ?_
  simp only [Settled,Tracked,setREvents,hsame]
  exact h.settled event.1

private theorem Inv.events (hfd : Function.Injective fd) (h : Inv fd s) {events : List (ι × BitVec 32)}
    (he : ∀ event ∈ events, ∃ nFd mask, s.kernel nFd = some (mask,event.1)) :
    ∃ t, events.foldlM (fillActiveChannel fd) s = .ok t ∧ Inv fd t := by
  induction events generalizing s with
  | nil => exact ⟨s,rfl,h⟩
  | cons event events ih =>
    obtain ⟨t,hrun,ht,hkernel⟩ := h.event hfd (he event List.mem_cons_self)
    have hrest : ∀ event ∈ events, ∃ nFd mask, t.kernel nFd = some (mask,event.1) := by
      rw [hkernel]
      exact fun event hmem => he event (List.mem_cons_of_mem _ hmem)
    obtain ⟨u,hfold,hu⟩ := ih ht hrest
    refine ⟨u,?_,hu⟩
    rw [List.foldlM_cons,hrun]
    exact hfold

private theorem Inv.poll (hfd : Function.Injective fd) (h : Inv fd s) {answer : Except Int (List (ι × BitVec 32))}
    (ha : Allowed fd s (.poll answer)) : ∃ t, poll fd answer s = .ok t ∧ Inv fd t := by
  have hclear : Inv fd { s with activeChannels := [] } := ⟨h.settled,h.stray,h.refused⟩
  cases answer with
  | error e => exact ⟨_,rfl,hclear⟩
  | ok events =>
    obtain ⟨hroom,hpointers⟩ := ha
    simp only [EPoller.poll]
    split
    · obtain ⟨t,hfold,ht⟩ := hclear.events hfd hpointers
      rw [fillActiveChannels,ensure_of _ hroom,ok_bind,hfold,ok_bind]
      refine ⟨_,rfl,?_⟩
      split
      · exact ⟨ht.settled,ht.stray,ht.refused⟩
      · exact ht
    · exact ⟨_,rfl,hclear⟩

/-- What is allowed does not halt, and keeps the views in agreement. -/
theorem inv_step (hfd : Function.Injective fd) (h : Inv fd s) {call : Call ι} (ha : Allowed fd s call) :
    ∃ t, step fd s call = .ok t ∧ Inv fd t := by
  cases call with
  | enableReading c => exact h.updated hfd c _
  | enableWriting c => exact h.updated hfd c _
  | disableWriting c => exact h.updated hfd c _
  | disableAll c => exact h.updated hfd c _
  | removeChannel c =>
    obtain ⟨hmap,hnone⟩ := ha
    obtain ⟨t,hrun,hframe,hsettled⟩ := removeChannel_ok (h.settled c).1 hmap hnone
    exact ⟨t,hrun,h.frame hfd hframe hsettled⟩
  | poll answer => exact h.poll hfd ha

/-! What a call that went through leaves alone. -/

omit [DecidableEq ι] in
/-- epoll_ctl concerns one descriptor, and neither the channels nor the map. -/
theorem update_frame {nOperation : Operation} (hs : update fd nOperation c s = .ok t) :
    t.channels = s.channels ∧ t.mpChannel = s.mpChannel ∧ ∀ n, n ≠ fd c → t.kernel n = s.kernel n := by
  unfold update at hs
  split at hs
  · rename_i kernel hk
    cases hs
    unfold epollCtl at hk
    split at hk <;> cases hk <;> exact ⟨rfl,rfl,fun n hn => Function.update_of_ne hn ..⟩
  · split at hs
    · cases hs
      exact ⟨rfl,rfl,fun _ _ => rfl⟩
    · cases hs

/-- A poll stores what the channels are ready for, and nothing else of them. -/
structure Same (s t : State ι) : Prop where
  mpChannel : t.mpChannel = s.mpChannel
  kernel : t.kernel = s.kernel
  nEvents : ∀ d, (t.channels d).nEvents = (s.channels d).nEvents
  nIndex : ∀ d, (t.channels d).nIndex = (s.channels d).nIndex

private theorem same_event {event : ι × BitVec 32} (hs : fillActiveChannel fd s event = .ok t) : Same s t := by
  simp only [fillActiveChannel,bind_ok_iff,Except.ok.injEq] at hs
  obtain ⟨-,-,-,-,rfl⟩ := hs
  refine ⟨rfl,rfl,fun d => ?_,fun d => ?_⟩
  all_goals
    simp only [setREvents,Function.update_apply]
    split
    · rename_i hd
      rw [hd]
    · rfl

private theorem same_events {events : List (ι × BitVec 32)} (hs : events.foldlM (fillActiveChannel fd) s = .ok t) : Same s t := by
  induction events generalizing s with
  | nil =>
    cases hs
    exact ⟨rfl,rfl,fun _ => rfl,fun _ => rfl⟩
  | cons event events ih =>
    obtain ⟨u,hevent,hrest⟩ := (bind_ok_iff _ _ _).mp hs
    have h := same_event hevent
    have h' := ih hrest
    exact ⟨h'.mpChannel.trans h.mpChannel,h'.kernel.trans h.kernel,fun d => (h'.nEvents d).trans (h.nEvents d),
      fun d => (h'.nIndex d).trans (h.nIndex d)⟩

theorem same_poll {answer : Except Int (List (ι × BitVec 32))} (hs : poll fd answer s = .ok t) : Same s t := by
  unfold poll at hs
  split at hs
  · cases hs
    exact ⟨rfl,rfl,fun _ => rfl,fun _ => rfl⟩
  · split at hs
    · simp only [fillActiveChannels,bind_ok_iff,Except.ok.injEq] at hs
      obtain ⟨u,⟨-,-,hevents⟩,rfl⟩ := hs
      have h := same_events hevents
      split <;> exact ⟨h.mpChannel,h.kernel,h.nEvents,h.nIndex⟩
    · cases hs
      exact ⟨rfl,rfl,fun _ => rfl,fun _ => rfl⟩

private theorem fill_ok {events : List (ι × BitVec 32)} (h : ∀ e ∈ events, s.mpChannel (fd e.1) = some e.1) :
    ∃ t, events.foldlM (fillActiveChannel fd) s = .ok t ∧ t.refused = s.refused ∧
      t.activeChannels = s.activeChannels ++ events.map Prod.fst ∧
      ∀ d, d ∉ events.map Prod.fst → t.channels d = s.channels d := by
  induction events generalizing s with
  | nil => exact ⟨s,rfl,rfl,(List.append_nil _).symm,fun _ _ => rfl⟩
  | cons e events ih =>
    have hmap := h e List.mem_cons_self
    have hpresent : s.mpChannel (fd e.1) ≠ none := by
      rw [hmap]
      exact Option.some_ne_none _
    obtain ⟨t,ht,hrefused,hactive,hchannels⟩ := ih
      (s := { setREvents s e.1 e.2 with activeChannels := s.activeChannels ++ [e.1] }) fun e he => h e (List.mem_cons_of_mem _ he)
    refine ⟨t,?_,hrefused,?_,fun d hd => ?_⟩
    · rw [List.foldlM_cons,fillActiveChannel,ensure_of _ hpresent,ok_bind,ensure_of _ hmap]
      exact ht
    · rw [hactive,List.map_cons]
      exact List.append_assoc ..
    · rw [List.map_cons,List.mem_cons,not_or] at hd
      exact (hchannels d hd.2).trans (Function.update_of_ne hd.1 ..)

/-- Events for channels that the map has under their descriptors are all taken down. -/
theorem poll_ok {events : List (ι × BitVec 32)} (hroom : events.length ≤ s.unEvents)
    (h : ∀ e ∈ events, s.mpChannel (fd e.1) = some e.1) :
    ∃ t, poll fd (.ok events) s = .ok t ∧ t.refused = s.refused ∧ t.activeChannels = events.map Prod.fst ∧
      ∀ d, d ∉ events.map Prod.fst → t.channels d = s.channels d := by
  obtain ⟨t,ht,hrefused,hactive,hchannels⟩ := fill_ok (s := { s with activeChannels := [] }) h
  simp only [poll]
  split
  · rw [fillActiveChannels,ensure_of _ hroom,ok_bind,ht,ok_bind]
    refine ⟨_,rfl,?_⟩
    split
    · exact ⟨hrefused,hactive,hchannels⟩
    · exact ⟨hrefused,hactive,hchannels⟩
  · rename_i hlength
    obtain rfl : events = [] := List.length_eq_zero_iff.mp (by omega)
    exact ⟨_,rfl,rfl,rfl,fun _ _ => rfl⟩

/-- The first part of an update changes the map only, and leaves its channel in it. -/
theorem register_registers (hs : register fd c s = .ok t) :
    t.mpChannel (fd c) ≠ none ∧ t.channels = s.channels ∧ t.kernel = s.kernel := by
  unfold register at hs
  split at hs
  · simp only [bind_ok_iff,Except.ok.injEq] at hs
    obtain ⟨-,-,rfl⟩ := hs
    exact ⟨by simp,rfl,rfl⟩
  · simp only [bind_ok_iff,ensure_ok_iff,Except.ok.injEq] at hs
    obtain ⟨-,hpresent,-,-,rfl⟩ := hs
    exact ⟨hpresent,rfl,rfl⟩

/-- An update that went through has its channel in the map. -/
theorem updateChannel_registers (hs : updateChannel fd c s = .ok t) : t.mpChannel (fd c) ≠ none := by
  simp only [updateChannel] at hs
  split at hs
  · obtain ⟨u,hregister,hadd⟩ := (bind_ok_iff _ _ _).mp hs
    rw [(update_frame hadd).2.1]
    exact (register_registers hregister).1
  · simp only [bind_ok_iff,ensure_ok_iff] at hs
    obtain ⟨-,hpresent,-,-,-,-,hmodify⟩ := hs
    unfold modify at hmodify
    split at hmodify
    · simp only [bind_ok_iff,Except.ok.injEq] at hmodify
      obtain ⟨u,hdel,rfl⟩ := hmodify
      show u.mpChannel (fd c) ≠ none
      rwa [(update_frame hdel).2.1]
    · rwa [(update_frame hmodify).2.1]

/-- A removal that went through had its channel in the map, without interest, and took it out. -/
theorem removeChannel_forgets (hs : removeChannel fd c s = .ok t) :
    s.mpChannel (fd c) = some c ∧ (s.channels c).isNoneEvent ∧ t.mpChannel (fd c) = none := by
  simp only [removeChannel,bind_ok_iff,ensure_ok_iff,Except.ok.injEq] at hs
  obtain ⟨-,-,-,hmap,-,hnone,-,-,-,-,u,hleave,rfl⟩ := hs
  refine ⟨hmap,hnone,?_⟩
  have hgone : (Function.update s.mpChannel (fd c) none) (fd c) = none := Function.update_self ..
  unfold leave at hleave
  split at hleave
  · show u.mpChannel (fd c) = none
    rwa [(update_frame hleave).2.1]
  · cases hleave
    exact hgone

/-- A channel's own calls, as far as they go through, keep the views in agreement. -/
theorem inv_calls (hfd : Function.Injective fd) (h : Inv fd s) {calls : List (Call ι)}
    (hcalls : ∀ call ∈ calls, ∀ answer, call ≠ .poll answer) (hs : calls.foldlM (step fd) s = .ok t) : Inv fd t := by
  induction calls generalizing s with
  | nil =>
    cases hs
    exact h
  | cons call calls ih =>
    simp only [List.foldlM_cons,bind_ok_iff] at hs
    obtain ⟨u,hu,hs⟩ := hs
    have hallowed : Allowed fd s call := by
      cases call with
      | removeChannel c => exact ⟨(removeChannel_forgets hu).1,(removeChannel_forgets hu).2.1⟩
      | poll answer => exact absurd rfl (hcalls _ List.mem_cons_self answer)
      | _ => trivial
    obtain ⟨u',hu',hinv⟩ := inv_step hfd h hallowed
    cases hu.symm.trans hu'
    exact ih hinv (fun call hmem => hcalls call (List.mem_cons_of_mem _ hmem)) hs

omit [DecidableEq ι] in
/-- A channel that is not in the map is not in the epoll set. -/
theorem Inv.absent (h : Inv fd s) (hmap : s.mpChannel (fd c) = none) : s.kernel (fd c) = none := by
  rcases (h.settled c).1 with ⟨-,-,hkernel⟩ | ⟨-,hpresent,-⟩ | ⟨-,hpresent,-⟩
  · exact hkernel
  · cases hmap.symm.trans hpresent
  · cases hmap.symm.trans hpresent

omit [DecidableEq ι] in
/-- The map has a channel under its own descriptor only. -/
private theorem Inv.listed (h : Inv fd s) {nFd : Int} {c : ι} (hmap : s.mpChannel nFd = some c) : nFd = fd c := by
  by_cases hn : ∃ d, fd d = nFd
  · obtain ⟨d,rfl⟩ := hn
    rcases (h.settled d).1 with ⟨-,hmap',-⟩ | ⟨-,hmap',-⟩ | ⟨-,hmap',-⟩
    · cases hmap'.symm.trans hmap
    · cases hmap'.symm.trans hmap
      rfl
    · cases hmap'.symm.trans hmap
      rfl
  · have hstray := (h.stray nFd fun d hd => hn ⟨d,hd⟩).1
    cases hstray.symm.trans hmap

omit [DecidableEq ι] in
private theorem Inv.agree (h : Inv fd s) (c : ι) : Agree fd s c := by
  obtain ⟨htracked,hmask⟩ := h.settled c
  refine ⟨?_,?_,hmask⟩
  · have habsent : (∀ nFd, s.mpChannel nFd ≠ some c) ↔ s.mpChannel (fd c) ≠ some c := by
      constructor
      · intro hall
        exact hall (fd c)
      · intro hown nFd hmap
        rw [h.listed hmap] at hmap
        exact hown hmap
    rw [habsent]
    rcases htracked with ⟨hindex,hmap,-⟩ | ⟨hindex,hmap,-⟩ | ⟨hindex,hmap,-⟩ <;>
      simp [hindex,hmap,new,added,deleted]
  · rcases htracked with ⟨hindex,-,hkernel⟩ | ⟨hindex,-,mask,hkernel⟩ | ⟨hindex,-,hkernel⟩ <;>
      simp [hindex,hkernel,new,added,deleted]

/-- In every run the views of every channel agree after each call, nothing asserted fails,
and epoll_ctl refuses nothing. -/
theorem views_agree (hfd : Function.Injective fd) (calls : List (Call ι))
    (h : (machine fd).Along (Allowed fd) init calls) :
    ∃ s, (machine fd).run init calls = .ok s ∧ (∀ c, Agree fd s c) ∧ s.refused = [] := by
  obtain ⟨s,hrun,hinv,-⟩ := (machine fd).run_refines (fun _ => ()) (fun _ _ => ())
    (fun s call hs ha => by
      obtain ⟨t,hstep,ht⟩ := inv_step hfd hs ha
      exact ⟨t,hstep,ht,rfl⟩) inv_init h
  exact ⟨s,hrun,hinv.agree,hinv.refused⟩

/-- Two channels with their descriptors; the first becomes readable, loses its interest and is removed. -/
def twoFds (c : Bool) : Int := if c then 5 else 4
def twoCalls : List (Call Bool) :=
  [.enableReading false,.enableReading true,.poll (.ok [(false,1)]),.enableWriting true,.disableAll false,.removeChannel false]

theorem views_agree_two : ∃ s, (machine twoFds).run init twoCalls = .ok s ∧
    s.refused = [] ∧ s.kernel 4 = none ∧ s.kernel 5 = some (7,true) := by
  have hallowed : (machine twoFds).Along (Allowed twoFds) init twoCalls := by
    refine And.intro trivial (And.intro trivial (And.intro ⟨by decide,?_⟩ (And.intro trivial (And.intro trivial
      (And.intro ⟨rfl,rfl⟩ trivial)))))
    intro event hevent
    rw [List.mem_singleton.mp hevent]
    exact ⟨4,3,rfl⟩
  obtain ⟨s,hrun,-,hrefused⟩ := views_agree (show Function.Injective twoFds by decide) _ hallowed
  have hkernel : ((machine twoFds).run init twoCalls).toOption.map (fun s => (s.kernel 4,s.kernel 5)) =
      some (none,some (7,true)) := rfl
  rw [hrun] at hkernel
  obtain ⟨h₄,h₅⟩ := Prod.mk.inj (Option.some.inj hkernel)
  exact ⟨s,hrun,hrefused,h₄,h₅⟩

end LinuxServer.Reactor.EPoller
