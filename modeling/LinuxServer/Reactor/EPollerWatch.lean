import LinuxServer.Reactor.EPoller

/-! What the kernel watches. A descriptor is in the epoll set while its channel has
interest, until a channel without interest is disabled once more. -/
namespace LinuxServer.Reactor.EPoller
open LinuxServer.Lib
variable {ι : Type} [DecidableEq ι] {fd : ι → Int} {s t : State ι} {c : ι}

variable (fd) in
/-- The epoll set has exactly the descriptors of the channels with interest. -/
def Watched (s : State ι) : Prop := ∀ nFd, s.kernel nFd ≠ none ↔ ∃ c, fd c = nFd ∧ ¬ (s.channels c).isNoneEvent

/-- A call that disables is made on a channel that has interest. -/
def HasInterest (s : State ι) : Call ι → Prop
  | .disableWriting c | .disableAll c => ¬ (s.channels c).isNoneEvent
  | _ => True

instance (s : State ι) (call : Call ι) : Decidable (HasInterest s call) := by
  cases call <;> (dsimp only [HasInterest]; infer_instance)

/-! What an update does to the epoll set. -/

omit [DecidableEq ι] in
theorem update_watches {nOperation : Operation} (h : update fd nOperation c s = .ok t) (hdel : nOperation = .del → s.kernel (fd c) ≠ none) :
    t.kernel (fd c) ≠ none ↔ nOperation ≠ .del := by
  unfold update at h
  split at h
  · rename_i kernel hk
    cases h
    unfold epollCtl at hk
    split at hk <;> cases hk <;> simp +contextual
  · rename_i hk
    split at h
    · rename_i hop
      obtain ⟨e,he⟩ := Option.ne_none_iff_exists'.mp (hdel hop)
      simp [epollCtl,hop,he] at hk
    · cases h

theorem setIndex_nEvents (nIndex : Int) (d : ι) : ((setIndex s c nIndex).channels d).nEvents = (s.channels d).nEvents := by
  simp only [setIndex,Function.update_apply]
  split
  · rename_i hd
    rw [hd]
  · rfl

/-- After an update the descriptor is watched, unless its channel was and has lost its interest. -/
theorem updateChannel_watches (hc : Tracked fd s c) (h : updateChannel fd c s = .ok t) :
    (∀ d, (t.channels d).nEvents = (s.channels d).nEvents) ∧ (∀ n, n ≠ fd c → t.kernel n = s.kernel n) ∧
      (t.kernel (fd c) ≠ none ↔ ¬ (s.kernel (fd c) ≠ none ∧ (s.channels c).isNoneEvent)) := by
  simp only [updateChannel] at h
  split at h
  · -- a new or deleted channel is added, whatever its mask
    rename_i hbranch
    have hout : s.kernel (fd c) = none := by
      rcases hc with ⟨-,-,hk⟩ | ⟨hi,-,-⟩ | ⟨-,-,hk⟩
      · exact hk
      · rw [hi] at hbranch
        exact absurd hbranch (by decide)
      · exact hk
    obtain ⟨u,hu,h⟩ := (bind_ok_iff _ _ _).mp h
    obtain ⟨-,hchannels,hkernel⟩ := register_registers hu
    obtain ⟨hch,-,hother⟩ := update_frame h
    have hk := update_watches h (by simp)
    refine ⟨?_,?_,?_⟩
    · intro d
      rw [hch,setIndex_nEvents,hchannels]
    · intro n hn
      rw [hother n hn]
      exact congrFun hkernel n
    · rw [hk,hout]
      simp
  · rename_i hbranch
    have hin : s.kernel (fd c) ≠ none := by
      rcases hc with ⟨hi,-,-⟩ | ⟨-,-,mask,hk⟩ | ⟨hi,-,-⟩
      · exact absurd (.inl hi.symm) hbranch
      · rw [hk]
        exact Option.some_ne_none _
      · exact absurd (.inr hi.symm) hbranch
    obtain ⟨-,-,h⟩ := (bind_ok_iff _ _ _).mp h
    obtain ⟨-,-,h⟩ := (bind_ok_iff _ _ _).mp h
    obtain ⟨-,-,h⟩ := (bind_ok_iff _ _ _).mp h
    unfold modify at h
    split at h
    · rename_i hnone
      obtain ⟨u,hu,h⟩ := (bind_ok_iff _ _ _).mp h
      cases h
      obtain ⟨hch,-,hother⟩ := update_frame hu
      have hk := update_watches hu fun _ => hin
      refine ⟨?_,hother,?_⟩
      · intro d
        rw [setIndex_nEvents,hch]
      · change u.kernel (fd c) ≠ none ↔ _
        rw [hk]
        simp [hin,hnone]
    · rename_i hsome
      obtain ⟨hch,-,hother⟩ := update_frame h
      have hk := update_watches h (by simp)
      refine ⟨?_,hother,?_⟩
      · intro d
        rw [hch]
      · rw [hk]
        simp [hsome]

omit [DecidableEq ι] in
theorem Watched.own (hfd : Function.Injective fd) (h : Watched fd s) (c : ι) :
    s.kernel (fd c) ≠ none ↔ ¬ (s.channels c).isNoneEvent := by
  rw [h (fd c)]
  constructor
  · rintro ⟨d,hd,hsome⟩
    rwa [← hfd hd]
  · intro hsome
    exact ⟨c,rfl,hsome⟩

omit [DecidableEq ι] in
/-- Whether the epoll set is right is decided channel by channel. -/
theorem watched_iff (hfd : Function.Injective fd) (h : Inv fd s) :
    Watched fd s ↔ ∀ c, s.kernel (fd c) ≠ none ↔ ¬ (s.channels c).isNoneEvent := by
  constructor
  · intro hw c
    exact hw.own hfd c
  · intro hall n
    by_cases hn : ∃ c, fd c = n
    · obtain ⟨c,rfl⟩ := hn
      rw [hall c]
      constructor
      · intro hsome
        exact ⟨c,rfl,hsome⟩
      · rintro ⟨d,hd,hsome⟩
        rwa [← hfd hd]
    · have hstray := (h.stray n fun c hc => hn ⟨c,hc⟩).2
      refine iff_of_false (fun hk => hk hstray) ?_
      rintro ⟨c,hc,-⟩
      exact hn ⟨c,hc⟩

/-- Setting the mask and updating: the channel's descriptor is watched, unless it was
and the mask is now empty; nothing else changes. -/
theorem set_watches (h : Inv fd s) {nEvents : BitVec 32} (ht : updateChannel fd c (setEvents s c nEvents) = .ok t) :
    (∀ d, (t.channels d).nEvents = if d = c then nEvents else (s.channels d).nEvents) ∧
      (∀ n, n ≠ fd c → t.kernel n = s.kernel n) ∧
      (t.kernel (fd c) ≠ none ↔ ¬ (s.kernel (fd c) ≠ none ∧ nEvents = Channel.noneEvent)) := by
  have hself : (setEvents s c nEvents).channels c = { s.channels c with nEvents := nEvents } := Function.update_self ..
  have htracked : Tracked fd (setEvents s c nEvents) c := by
    rw [Tracked,hself]
    exact (h.settled c).1
  obtain ⟨hmask,hother,hk⟩ := updateChannel_watches htracked ht
  refine ⟨?_,hother,?_⟩
  · intro d
    rw [hmask]
    simp only [setEvents,Function.update_apply]
    split <;> rfl
  · rw [hk,Channel.isNoneEvent,hself]
    rfl

/-- The epoll set stays right unless a channel without interest is given no interest. -/
theorem set_watched_iff (hfd : Function.Injective fd) (h : Inv fd s) (hw : Watched fd s) (hinv : Inv fd t)
    {nEvents : BitVec 32} (ht : updateChannel fd c (setEvents s c nEvents) = .ok t) :
    Watched fd t ↔ ¬ ((s.channels c).isNoneEvent ∧ nEvents = Channel.noneEvent) := by
  obtain ⟨hmask,hother,hk⟩ := set_watches h ht
  have hc : (t.channels c).isNoneEvent ↔ nEvents = Channel.noneEvent := by rw [Channel.isNoneEvent,hmask,if_pos rfl]
  rw [hw.own hfd c] at hk
  rw [watched_iff hfd hinv]
  constructor
  · rintro hall ⟨hnone,rfl⟩
    have hown := hall c
    rw [hk,hc] at hown
    exact absurd rfl (hown.mp fun h => h.1 hnone)
  · intro hkeep d
    by_cases hd : d = c
    · rw [hd,hk,hc]
      constructor
      · intro hnot hnone
        by_cases hold : (s.channels c).isNoneEvent
        · exact hkeep ⟨hold,hnone⟩
        · exact hnot ⟨hold,hnone⟩
      · rintro hsome ⟨-,hnone⟩
        exact hsome hnone
    · rw [hother _ (hfd.ne hd),Channel.isNoneEvent,hmask,if_neg hd]
      exact hw.own hfd d

theorem removeChannel_watched (hfd : Function.Injective fd) (h : Inv fd s) (hw : Watched fd s)
    (ht : removeChannel fd c s = .ok t) : Watched fd t := by
  obtain ⟨hmap,hnone,-⟩ := removeChannel_forgets ht
  have hout : s.kernel (fd c) = none := by
    by_contra hk
    exact (hw.own hfd c).mp hk hnone
  have hindex : ¬ added = (s.channels c).nIndex := by
    intro hi
    rcases (h.settled c).1 with ⟨hi',-,-⟩ | ⟨-,-,mask,hk⟩ | ⟨hi',-,-⟩
    · rw [hi'] at hi
      exact absurd hi (by decide)
    · cases hout.symm.trans hk
    · rw [hi'] at hi
      exact absurd hi (by decide)
  simp only [removeChannel,bind_ok_iff,ensure_ok_iff,Except.ok.injEq,leave,if_neg hindex] at ht
  obtain ⟨-,-,-,-,-,-,-,-,-,-,u,rfl,rfl⟩ := ht
  intro n
  have hmask (d : ι) : ((setIndex (s := { s with mpChannel := Function.update s.mpChannel (fd c) none }) c new).channels d).nEvents =
      (s.channels d).nEvents := by
    simp only [setIndex,Function.update_apply]
    split
    · rename_i hd
      rw [hd]
    · rfl
  simp only [Channel.isNoneEvent,hmask]
  exact hw n

theorem poll_watched {answer : Except Int (List (ι × BitVec 32))} (hw : Watched fd s) (ht : poll fd answer s = .ok t) :
    Watched fd t := by
  have hsame := same_poll ht
  intro n
  simp only [hsame.kernel,Channel.isNoneEvent,hsame.nEvents]
  exact hw n

/-- A call keeps the epoll set right exactly when it does not disable a channel that is
without interest. -/
theorem step_watched_iff (hfd : Function.Injective fd) (h : Inv fd s) (hw : Watched fd s) {call : Call ι}
    (ha : Allowed fd s call) (ht : step fd s call = .ok t) : Watched fd t ↔ HasInterest s call := by
  have hinv : Inv fd t := by
    obtain ⟨t',ht',hinv⟩ := inv_step hfd h ha
    cases ht.symm.trans ht'
    exact hinv
  cases call with
  | enableReading c =>
    have hsome : (s.channels c).nEvents ||| Channel.readEvent ≠ Channel.noneEvent :=
      fun h => absurd (BitVec.or_eq_zero_iff.mp h).2 (by decide)
    exact (set_watched_iff hfd h hw hinv ht).trans (iff_of_true (fun h => hsome h.2) trivial)
  | enableWriting c =>
    have hsome : (s.channels c).nEvents ||| Channel.writeEvent ≠ Channel.noneEvent :=
      fun h => absurd (BitVec.or_eq_zero_iff.mp h).2 (by decide)
    exact (set_watched_iff hfd h hw hinv ht).trans (iff_of_true (fun h => hsome h.2) trivial)
  | disableWriting c =>
    refine (set_watched_iff hfd h hw hinv ht).trans (not_congr (and_iff_left_of_imp ?_))
    intro hnone
    rw [hnone]
    exact BitVec.zero_and
  | disableAll c => exact (set_watched_iff hfd h hw hinv ht).trans (not_congr (and_iff_left rfl))
  | removeChannel c => exact iff_of_true (removeChannel_watched hfd h hw ht) trivial
  | poll answer => exact iff_of_true (poll_watched hw ht) trivial

omit [DecidableEq ι] in
theorem watched_init : Watched fd (init : State ι) := by
  intro n
  refine iff_of_false (fun h => h rfl) ?_
  rintro ⟨c,-,hsome⟩
  exact hsome rfl

/-- Disabling a channel without interest takes its descriptor into the epoll set, or out
of it when an earlier one has taken it in. -/
theorem disable_toggles (hfd : Function.Injective fd) (h : Inv fd s) {call : Call ι} (hcall : call = .disableWriting c ∨ call = .disableAll c)
    (hnone : (s.channels c).isNoneEvent) :
    ∃ t, step fd s call = .ok t ∧ (t.kernel (fd c) ≠ none ↔ s.kernel (fd c) = none) := by
  have hallowed : Allowed fd s call := by rcases hcall with rfl | rfl <;> trivial
  obtain ⟨t,ht,-⟩ := inv_step hfd h hallowed
  refine ⟨t,ht,?_⟩
  have hset : updateChannel fd c (setEvents s c Channel.noneEvent) = .ok t := by
    rcases hcall with rfl | rfl
    · have hmask : (s.channels c).nEvents &&& ~~~Channel.writeEvent = Channel.noneEvent := by
        rw [hnone]
        exact BitVec.zero_and
      change updateChannel fd c (setEvents s c ((s.channels c).nEvents &&& ~~~Channel.writeEvent)) = .ok t at ht
      rwa [hmask] at ht
    · exact ht
  rw [(set_watches h hset).2.2]
  simp

theorem always_watched_iff (hfd : Function.Injective fd) {calls : List (Call ι)}
    (h : (machine fd).Along (Allowed fd) init calls) :
    (machine fd).Always (Watched fd) init calls ↔ (machine fd).Along HasInterest init calls :=
  (machine fd).always_iff (A := Allowed fd) (P := Inv fd) (fun _ _ hs ha => inv_step hfd hs ha)
    (fun _ _ _ hs hw ha ht => step_watched_iff hfd hs hw ha ht) inv_init watched_init h

/-- In every run the epoll set is right after each call exactly when no call disables a
channel that is without interest; such a call always changes the epoll set. -/
theorem epoll_set_exact_iff (hfd : Function.Injective fd) (calls : List (Call ι))
    (h : (machine fd).Along (Allowed fd) init calls) :
    ((machine fd).Always (Watched fd) init calls ↔ (machine fd).Along HasInterest init calls) ∧
      ∃ s, (machine fd).run init calls = .ok s ∧ ∀ c, (s.channels c).isNoneEvent →
        ∀ call, call = .disableWriting c ∨ call = .disableAll c →
          ∃ t, step fd s call = .ok t ∧ (t.kernel (fd c) ≠ none ↔ s.kernel (fd c) = none) := by
  refine ⟨always_watched_iff hfd h,?_⟩
  obtain ⟨s,hrun,hinv,-⟩ := (machine fd).run_refines (fun _ => ()) (fun _ _ => ())
    (fun s call hs ha => by
      obtain ⟨t,hstep,ht⟩ := inv_step hfd hs ha
      exact ⟨t,hstep,ht,rfl⟩) inv_init h
  exact ⟨s,hrun,fun c hnone call hcall => disable_toggles hfd hinv hcall hnone⟩

/-- Reading and writing, writing off, everything off, removed, and the other channel enabled. -/
theorem epoll_set_exact_iff_two : (machine twoFds).Always (Watched twoFds) init
    [.enableReading false,.enableWriting false,.disableWriting false,.disableAll false,.removeChannel false,.enableReading true] := by
  apply (epoll_set_exact_iff (show Function.Injective twoFds by decide) _ ?_).1.mpr
  · decide +kernel
  · exact And.intro trivial (And.intro trivial (And.intro trivial (And.intro trivial (And.intro ⟨rfl,rfl⟩
      (And.intro trivial trivial)))))

/-- A connection that is closed and then destroyed disables its channel twice: the
descriptor is back in the epoll set with an empty mask. -/
theorem disableAll_twice_watches :
    ∃ s, (machine twoFds).run init [.enableReading false,.disableAll false,.disableAll false] = .ok s ∧
      (s.channels false).isNoneEvent ∧ s.kernel 4 = some (0,false) ∧
      ¬ (machine twoFds).Always (Watched twoFds) init [.enableReading false,.disableAll false,.disableAll false] := by
  have hallowed : (machine twoFds).Along (Allowed twoFds) init [.enableReading false,.disableAll false,.disableAll false] :=
    And.intro trivial (And.intro trivial (And.intro trivial trivial))
  obtain ⟨s,hrun,hs⟩ := (machine twoFds).exists_run_eq [.enableReading false,.disableAll false,.disableAll false]
    (fun s => (s.channels false,s.kernel 4)) (s := init) (b := (⟨0,0,1⟩,some (0,false))) rfl
  obtain ⟨hchannel,hkernel⟩ := Prod.mk.inj hs
  refine ⟨s,hrun,?_,hkernel,?_⟩
  · rw [Channel.isNoneEvent,hchannel]
    rfl
  · rw [always_watched_iff (by decide) hallowed]
    decide +kernel

end LinuxServer.Reactor.EPoller
