import LinuxServer.Reactor.Poller
import Mathlib.Order.Interval.Set.Defs

/-! The index of the poller under removal: the last pollfd moves into the hole, and its
channel is found through a descriptor that may be encoded. -/
namespace LinuxServer.Reactor.Poller
open LinuxServer.Lib
open EPoller (Channel)

/-- A channel sets bits of POLLIN, POLLPRI and POLLOUT only. -/
abbrev Mask := { m : BitVec 32 // m.toNat < 8 }

/-- A call of UpdateChannel comes with the mask that the channel has by then. -/
inductive Op (ι : Type) where
  | updateChannel (c : ι) (nEvents : Mask)
  | removeChannel (c : ι)
  | poll (answer : Except Int (List (BitVec 16)))

variable {ι : Type} [DecidableEq ι]

section Index
variable (fd : ι → Int)

/-- The kernel answers as poll(2) says; every other guard is the source's. -/
def opStep (s : State ι) : Op ι → Except Halt (State ι)
  | .updateChannel c nEvents => updateChannel fd c (setEvents s c nEvents)
  | .removeChannel c => removeChannel fd c s
  | .poll answer => do
    ensure .notEnabled (Allowed fd s (.poll answer))
    poll fd answer s

def indexing : Machine (State ι) (Op ι) Halt := ⟨fun s => s = init,opStep fd⟩

/-- The vector and the map are in bijection. -/
structure Indexed (s : State ι) : Prop where
  bijective : Set.BijOn (fun c => (s.channels c).nIndex) {c | Registered fd s c} (Set.Ico 0 s.pollFds.length)
  key : ∀ n c, s.mpChannels n = some c → n = fd c
  own : ∀ c, Registered fd s c → (pollFd s c).fd = fd c ∨ (pollFd s c).fd = -fd c - 1

/-- The channel is out, and every other one has what it had, up to its place. -/
structure Removed (c : ι) (s t : State ι) : Prop where
  out : ¬ Registered fd t c
  registered : ∀ d, d ≠ c → (Registered fd t d ↔ Registered fd s d)
  channel : ∀ d, t.channels d = { s.channels d with nIndex := (t.channels d).nIndex }
  pollFd : ∀ d, d ≠ c → Registered fd s d → pollFd t d = pollFd s d

def PollFd.ready (pfd : PollFd) : Bool := 0 < pfd.revents.toInt

/-- The active channels are those of the ready pollfds, in their order. -/
structure Delivered (t : State ι) : Prop where
  active : t.activeChannels.map (pollFd t) = t.pollFds.filter PollFd.ready
  own : ∀ c ∈ t.activeChannels, Registered fd t c ∧ (pollFd t c).fd = fd c ∧
    (t.channels c).nREvents = (pollFd t c).revents.signExtend 32

variable {fd} {s t : State ι} {c : ι}

/-! A call that completes has met the assertions. -/

theorem updateChannel_asserts (h : updateChannel fd c s = .ok t) : (s.channels c).nIndex < 0 ∨ Registered fd s c := by
  by_cases hc : (s.channels c).nIndex < 0
  · exact .inl hc
  · right
    simp only [updateChannel,if_neg hc,bind_ok_iff,ensure_ok_iff] at h
    obtain ⟨-,-,-,hmap,-⟩ := h
    exact hmap

theorem removeChannel_asserts (h : removeChannel fd c s = .ok t) :
    Registered fd s c ∧ (s.channels c).isNoneEvent ∧ Removable fd s c := by
  simp only [removeChannel,bind_ok_iff,ensure_ok_iff] at h
  obtain ⟨-,-,-,hmap,-,hnone,-,-,-,hrem,-⟩ := h
  exact ⟨hmap,hnone,hrem⟩

theorem op_inv (hpos : ∀ c, 0 ≤ fd c) (hfd : Function.Injective fd) (h : Inv fd s) {op : Op ι}
    (ht : opStep fd s op = .ok t) : Inv fd t := by
  cases op with
  | updateChannel c nEvents =>
    have ha := updateChannel_asserts ht
    rw [setEvents_self] at ha
    obtain ⟨t',ht',hinv,-⟩ := update_ok hpos hfd h ha nEvents.property
    cases ht.symm.trans ht'
    exact hinv
  | removeChannel c =>
    obtain ⟨hr,hnone,hrem⟩ := removeChannel_asserts ht
    obtain ⟨t',ht',hinv,-⟩ := removeChannel_ok hpos hfd h hr hnone hrem
    cases ht.symm.trans ht'
    exact hinv
  | poll answer =>
    simp only [opStep,bind_ok_iff,ensure_ok_iff] at ht
    obtain ⟨-,ha,ht⟩ := ht
    obtain ⟨t',ht',hsame⟩ := poll_ok hpos h ha
    cases ht.symm.trans ht'
    exact hsame.inv h

theorem reachable_inv (hpos : ∀ c, 0 ≤ fd c) (hfd : Function.Injective fd) (h : (indexing fd).Reachable s) : Inv fd s := by
  apply Machine.Reachable.invariant (P := Inv fd) _ _ h
  · intro s hs
    rw [show s = init from hs]
    exact inv_init
  · intro s op t hs ht
    exact op_inv hpos hfd hs ht

omit [DecidableEq ι] in
theorem Inv.indexed (hpos : ∀ c, 0 ≤ fd c) (hfd : Function.Injective fd) (h : Inv fd s) : Indexed fd s := by
  refine ⟨⟨fun c hc => h.index c hc,fun c hc d hd hi => h.index_inj hpos hfd hc hd hi,?_⟩,h.listed,h.fd_or⟩
  rintro n ⟨h0,hlt⟩
  obtain ⟨c,hr,hc⟩ := h.owner n.toNat (by omega)
  refine ⟨c,hr,?_⟩
  dsimp only
  omega

/-! Removal. -/

private theorem setIndex_channels (s : State ι) (c d : ι) (nIndex : Int) : (setIndex s c nIndex).channels d =
    { s.channels d with nIndex := ((setIndex s c nIndex).channels d).nIndex } := by
  unfold setIndex
  by_cases hd : d = c
  · rw [hd]
    simp only [Function.update_self]
  · simp only [Function.update_of_ne hd]

theorem removeChannel_channels (h : removeChannel fd c s = .ok t) (d : ι) :
    t.channels d = { s.channels d with nIndex := (t.channels d).nIndex } := by
  simp only [removeChannel,bind_ok_iff,ensure_ok_iff] at h
  obtain ⟨-,-,-,-,-,-,-,-,-,-,-,-,h⟩ := h
  split at h
  · cases h
    rfl
  · unfold moveLast at h
    dsimp only at h
    split at h
    · cases h
      exact setIndex_channels { s with mpChannels := Function.update s.mpChannels (fd c) none } _ d _
    · cases h

theorem removed_of_removeChannel (hpos : ∀ c, 0 ≤ fd c) (hfd : Function.Injective fd) (h : Inv fd s)
    (ht : removeChannel fd c s = .ok t) : Removed fd c s t := by
  obtain ⟨hr,hnone,hrem⟩ := removeChannel_asserts ht
  obtain ⟨t',ht',-,hframe,hout⟩ := removeChannel_ok hpos hfd h hr hnone hrem
  cases ht.symm.trans ht'
  exact ⟨hout,hframe.registered,removeChannel_channels ht,hframe.pollFd⟩

/-- The call completes, or fails one of its assertions. -/
def Asserting (x : Except Halt (State ι)) : Prop := ∀ e, x = .error e → ∃ text, e = .assertion text

omit [DecidableEq ι] in
private theorem asserting_ok : Asserting (.ok s) := by
  intro e he
  cases he

omit [DecidableEq ι] in
private theorem Asserting.ensure (text : String) {p : Prop} [Decidable p] {x : Except Halt (State ι)} (h : p → Asserting x) :
    Asserting (ensure (.assertion text) p >>= fun _ => x) := by
  by_cases hp : p
  · rw [ensure_of _ hp,ok_bind]
    exact h hp
  · intro e he
    rw [ensure_not _ hp] at he
    cases he
    exact ⟨text,rfl⟩

theorem updateChannel_asserting : Asserting (updateChannel fd c s) := by
  unfold updateChannel
  dsimp only
  split
  · exact .ensure _ fun _ => asserting_ok
  · exact .ensure _ fun _ => .ensure _ fun _ => .ensure _ fun _ => .ensure _ fun _ => asserting_ok

/-- What the last pollfd stands for is in the map. -/
theorem removeChannel_asserting (hpos : ∀ c, 0 ≤ fd c) (hfd : Function.Injective fd) (h : Inv fd s) :
    Asserting (removeChannel fd c s) := by
  by_cases hguards : Registered fd s c ∧ (s.channels c).isNoneEvent ∧ Removable fd s c
  · obtain ⟨hr,hnone,hrem⟩ := hguards
    obtain ⟨t,ht,-⟩ := removeChannel_ok hpos hfd h hr hnone hrem
    rw [ht]
    exact asserting_ok
  · unfold removeChannel
    refine .ensure _ fun _ => .ensure _ fun hr => .ensure _ fun hnone => .ensure _ fun _ => .ensure _ fun hrem => ?_
    exact absurd ⟨hr,hnone,hrem⟩ hguards

/-! Polls. -/

omit [DecidableEq ι] in
/-- No two pollfds have one descriptor. -/
theorem Inv.fds_nodup (hpos : ∀ c, 0 ≤ fd c) (hfd : Function.Injective fd) (h : Inv fd s) :
    (s.pollFds.map PollFd.fd).Nodup := by
  rw [List.nodup_iff_injective_getElem]
  intro ⟨i,hi⟩ ⟨j,hj⟩ heq
  rw [List.length_map] at hi hj
  simp only [List.getElem_map] at heq
  obtain ⟨c,-,hc,-,hor⟩ := h.place hi
  obtain ⟨d,-,hd,-,hor'⟩ := h.place hj
  have hcd : c = d := by
    have h0 := hpos c
    have h0' := hpos d
    apply hfd
    omega
  rw [Fin.mk.injEq]
  rw [hcd] at hc
  omega

theorem PollFd.ready_iff (pfd : PollFd) : pfd.ready = true ↔ 0 < pfd.revents.toInt := decide_eq_true_iff

variable (fd) in
/-- The channel is the one registered for the pollfd, and was told its events. -/
def Told (s t : State ι) (c : ι) (pfd : PollFd) : Prop :=
  s.mpChannels pfd.fd = some c ∧ fd c = pfd.fd ∧ (t.channels c).nREvents = pfd.revents.signExtend 32

/-- A loop that is through has taken each ready pollfd once, in the order of the vector. -/
theorem fill_active {n : Nat} {l : List PollFd} {s : State ι} (ht : fillActiveChannels fd n l s = .ok t)
    (hn : l.countP PollFd.ready ≤ n) (hnodup : (l.map PollFd.fd).Nodup) :
    t.pollFds = s.pollFds ∧ ∃ cs, t.activeChannels = s.activeChannels ++ cs ∧
      List.Forall₂ (Told fd s t) cs (l.filter PollFd.ready) ∧ ∀ d, fd d ∉ l.map PollFd.fd → t.channels d = s.channels d := by
  induction l generalizing n s with
  | nil =>
    have hst : s = t := by cases n <;> exact Except.ok.inj ht
    subst hst
    exact ⟨rfl,[],(List.append_nil _).symm,.nil,fun _ _ => rfl⟩
  | cons pfd l ih =>
    rw [List.map_cons,List.nodup_cons] at hnodup
    cases n with
    | zero =>
      cases ht
      have hnone : (pfd :: l).filter PollFd.ready = [] :=
        List.filter_eq_nil_iff.mpr (List.countP_eq_zero.mp (Nat.le_zero.mp hn))
      rw [hnone]
      exact ⟨rfl,[],(List.append_nil _).symm,.nil,fun _ _ => rfl⟩
    | succ n =>
      by_cases hr : 0 < pfd.revents.toInt
      · have hready := pfd.ready_iff.mpr hr
        rw [fillActiveChannels,if_pos hr] at ht
        split at ht
        · rename_i c hmap
          simp only [bind_ok_iff,ensure_ok_iff] at ht
          obtain ⟨-,hc,ht⟩ := ht
          rw [List.countP_cons_of_pos hready] at hn
          obtain ⟨hfds,cs,hactive,htold,hframe⟩ := ih ht (Nat.le_of_succ_le_succ hn) hnodup.2
          -- no later pollfd belongs to the channel, so what it was told stays
          have hown : (t.channels c).nREvents = pfd.revents.signExtend 32 := by
            rw [hframe c (by rw [hc]; exact hnodup.1)]
            change (Function.update s.channels c _ c).nREvents = _
            rw [Function.update_self]
          refine ⟨hfds,c :: cs,?_,?_,fun d hd => ?_⟩
          · rw [hactive]
            exact List.append_assoc ..
          · rw [List.filter_cons_of_pos hready]
            exact .cons ⟨hmap,hc,hown⟩ htold
          · rw [List.map_cons,List.mem_cons,not_or] at hd
            rw [hframe d hd.2]
            refine Function.update_of_ne ?_ ..
            rintro rfl
            exact hd.1 hc
        · cases ht
      · have hready : ¬ pfd.ready = true := fun h => hr (pfd.ready_iff.mp h)
        rw [fillActiveChannels,if_neg hr] at ht
        rw [List.countP_cons_of_neg hready] at hn
        obtain ⟨hfds,cs,hactive,htold,hframe⟩ := ih ht hn hnodup.2
        refine ⟨hfds,cs,hactive,?_,fun d hd => hframe d fun hmem => hd (List.mem_cons_of_mem _ hmem)⟩
        rw [List.filter_cons_of_neg hready]
        exact htold

omit [DecidableEq ι] in
/-- A pollfd with the plain descriptor of a channel is the one at the channel's index. -/
theorem Inv.pollFd_eq (hpos : ∀ c, 0 ≤ fd c) (hfd : Function.Injective fd) (h : Inv fd s) {pfd : PollFd}
    (hp : pfd ∈ s.pollFds) (hc : fd c = pfd.fd) : Registered fd s c ∧ pollFd s c = pfd := by
  obtain ⟨i,hi,rfl⟩ := List.mem_iff_getElem.mp hp
  obtain ⟨d,hr,-,hpoll,hor⟩ := h.place hi
  have h0 := hpos c
  have h0' := hpos d
  obtain rfl : c = d := by
    apply hfd
    omega
  exact ⟨hr,hpoll⟩

/-- The pollfds with what the kernel stored in them. -/
def answered (pollFds : List PollFd) (revents : List (BitVec 16)) : List PollFd :=
  List.zipWith (fun pfd r => { pfd with revents := r }) pollFds revents

private theorem answered_fd {pollFds : List PollFd} {revents : List (BitVec 16)} (hlen : revents.length = pollFds.length) :
    (answered pollFds revents).map PollFd.fd = pollFds.map PollFd.fd := by
  apply List.ext_getElem
  · simp [answered,hlen]
  · intro i _ _
    simp [answered]

/-- The number that the kernel returns is not used up before the last ready pollfd. -/
private theorem answered_ready {pollFds : List PollFd} {revents : List (BitVec 16)} (hlen : revents.length = pollFds.length) :
    (answered pollFds revents).countP PollFd.ready ≤ revents.countP (· ≠ 0) := by
  have hrevents : (answered pollFds revents).map PollFd.revents = revents := by
    apply List.ext_getElem
    · simp [answered,hlen]
    · intro i _ _
      simp [answered]
  have hcount : (answered pollFds revents).countP PollFd.ready = revents.countP fun r => 0 < r.toInt := by
    conv_rhs => rw [← hrevents,List.countP_map]
    rfl
  rw [hcount]
  refine List.countP_mono_left fun r _ hr => ?_
  rw [decide_eq_true_eq] at hr ⊢
  rintro rfl
  exact absurd hr (by decide)

theorem poll_delivers (hpos : ∀ c, 0 ≤ fd c) (hfd : Function.Injective fd) (h : Inv fd s) {revents : List (BitVec 16)}
    (ha : Allowed fd s (.poll (.ok revents))) :
    ∃ t, poll fd (.ok revents) s = .ok t ∧ t.pollFds = answered s.pollFds revents ∧ Delivered fd t := by
  obtain ⟨t,ht,hsame⟩ := poll_ok hpos h ha
  have hinv := hsame.inv h
  have hnodup : ((answered s.pollFds revents).map PollFd.fd).Nodup := by
    rw [answered_fd ha.1]
    exact h.fds_nodup hpos hfd
  obtain ⟨hfds,cs,hactive,htold,-⟩ := fill_active ht (answered_ready ha.1) hnodup
  obtain rfl : t.activeChannels = cs := hactive
  -- each pair of an active channel and a ready pollfd is one of the index
  have hown : List.Forall₂ (fun c pfd => Registered fd t c ∧ pollFd t c = pfd ∧ fd c = pfd.fd ∧
      (t.channels c).nREvents = pfd.revents.signExtend 32) t.activeChannels (t.pollFds.filter PollFd.ready) := by
    rw [hfds]
    refine List.forall₂_iff_zip.mpr ⟨htold.length_eq,?_⟩
    intro c pfd hmem
    obtain ⟨-,hc,hr⟩ := (List.forall₂_iff_zip.mp htold).2 hmem
    have hp : pfd ∈ t.pollFds := by
      rw [hfds]
      exact (List.mem_filter.mp (List.of_mem_zip hmem).2).1
    obtain ⟨hreg,hpoll⟩ := hinv.pollFd_eq hpos hfd hp hc
    exact ⟨hreg,hpoll,hc,hr⟩
  refine ⟨t,ht,hfds,?_,?_⟩
  · rw [← List.forall₂_eq_eq_eq,List.forall₂_map_left_iff]
    exact hown.imp fun c pfd h => h.2.1
  · intro c hc
    obtain ⟨i,rfl⟩ := List.mem_iff_get.mp hc
    obtain ⟨hlen,hget⟩ := List.forall₂_iff_get.mp hown
    obtain ⟨hreg,hpoll,hfd,hr⟩ := hget i.val i.isLt (hlen ▸ i.isLt)
    rw [← hpoll] at hfd hr
    exact ⟨hreg,hfd.symm,hr⟩

/-- In every sequence of calls that meet the assertions the index is exact: one pollfd a
registered channel, its own; a removal leaves the other channels as they are; a call
fails by an assertion if at all; and the ready pollfds activate their own channels. -/
theorem index_exact (hpos : ∀ c, 0 ≤ fd c) (hfd : Function.Injective fd) (h : (indexing fd).Reachable s) :
    Indexed fd s ∧ (∀ c t, removeChannel fd c s = .ok t → Removed fd c s t) ∧
      (∀ c nEvents, Asserting (updateChannel fd c (setEvents s c nEvents))) ∧ (∀ c, Asserting (removeChannel fd c s)) ∧
      ∀ revents, Allowed fd s (.poll (.ok revents)) →
        ∃ t, poll fd (.ok revents) s = .ok t ∧ t.pollFds = answered s.pollFds revents ∧ Delivered fd t := by
  have hinv := reachable_inv hpos hfd h
  exact ⟨hinv.indexed hpos hfd,fun _ _ => removed_of_removeChannel hpos hfd hinv,fun _ _ => updateChannel_asserting,
    fun _ => removeChannel_asserting hpos hfd hinv,fun _ => poll_delivers hpos hfd hinv⟩

def threeFds : Fin 3 → Int := ![4,0,9]

/-- Three channels, the second with descriptor 0: the outer two are disabled, and the first
is removed, so that the encoded last pollfd moves. -/
theorem index_exact_middle : ∃ s t : State (Fin 3), (indexing threeFds).Reachable s ∧ s.pollFds = [⟨-10,0,0⟩,⟨0,3,0⟩] ∧
    Indexed threeFds s ∧ poll threeFds (.ok [0,1]) s = .ok t ∧ t.activeChannels.map (pollFd t) = [⟨0,3,1⟩] := by
  let ops : List (Op (Fin 3)) := [.updateChannel 0 ⟨3,by decide⟩,.updateChannel 1 ⟨3,by decide⟩,.updateChannel 2 ⟨4,by decide⟩,
    .poll (.ok [1,0,4]),.updateChannel 0 ⟨0,by decide⟩,.updateChannel 2 ⟨0,by decide⟩,.removeChannel 0]
  obtain ⟨s,hr,hs⟩ := (indexing threeFds).exists_reachable rfl ops (fun s => s.pollFds) (b := [⟨-10,0,0⟩,⟨0,3,0⟩]) (by decide +kernel)
  obtain ⟨hindexed,-,-,-,hpoll⟩ := index_exact (by decide) (show Function.Injective threeFds by decide) hr
  obtain ⟨t,ht,hfds,hdelivered⟩ := hpoll [0,1] (by rw [Allowed,hs]; decide)
  refine ⟨s,t,hr,hs,hindexed,ht,?_⟩
  rw [hdelivered.active,hfds,hs]
  decide

end Index

end LinuxServer.Reactor.Poller
