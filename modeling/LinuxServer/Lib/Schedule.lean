import Mathlib

/-! Tasks that run at the readings of a clock, which can go back: a task runs at the
first reading not before its time, and a repeating one again at the first reading
not before an interval on. -/
namespace LinuxServer.Lib

/-- When a task is due next, if ever, and the numbers of the readings it ran at. -/
@[ext] structure Lane (τ : Type) where
  next : Option τ
  rounds : List Nat
  deriving DecidableEq

namespace Lane
section Readings
variable {τ : Type} {reads : List τ}

private theorem get_keep {q : Nat} {x : τ} (now : τ) (h : reads[q]? = some x) : (reads ++ [now])[q]? = some x := by
  obtain ⟨hlt,-⟩ := List.getElem?_eq_some_iff.mp h
  rw [List.getElem?_append_left hlt,h]

private theorem get_append {q : Nat} {x now : τ} (h : (reads ++ [now])[q]? = some x) :
    reads[q]? = some x ∨ q = reads.length ∧ x = now := by
  by_cases hq : q < reads.length
  · rw [List.getElem?_append_left hq] at h
    exact .inl h
  · have hlen := (List.getElem?_eq_some_iff.mp h).1
    rw [List.length_append,List.length_singleton] at hlen
    obtain rfl : q = reads.length := by omega
    rw [List.getElem?_concat_length] at h
    exact .inr ⟨rfl,(Option.some.inj h).symm⟩

end Readings

variable {τ : Type} [LinearOrder τ] [Add τ] (every : Option τ)

/-- One reading, with its number. -/
def read (l : Lane τ) (r : Nat) (now : τ) : Lane τ :=
  match l.next with
  | none => l
  | some due => if due ≤ now then ⟨every.map (now + ·),l.rounds ++ [r]⟩ else l

/-- A task from the reading with a given number on. -/
def after (due : τ) (start : Nat) (reads : List τ) : Lane τ :=
  ((reads.drop start).zipIdx start).foldl (fun l x => l.read every x.2 x.1) ⟨some due,[]⟩

theorem after_start (due : τ) {start : Nat} {reads : List τ} (h : reads.length ≤ start) :
    after every due start reads = ⟨some due,[]⟩ := by
  rw [after,List.drop_of_length_le h]
  rfl

theorem after_append (due : τ) {start : Nat} {reads : List τ} (now : τ) (h : start ≤ reads.length) :
    after every due start (reads ++ [now]) = (after every due start reads).read every reads.length now := by
  rw [after,List.drop_append_of_le_length h,List.zipIdx_append,List.foldl_append,List.length_drop,
    Nat.add_sub_cancel' h]
  rfl

theorem read_due {l : Lane τ} {r : Nat} {now due : τ} (hn : l.next = some due) (h : due ≤ now) :
    l.read every r now = ⟨every.map (now + ·),l.rounds ++ [r]⟩ := by
  rw [read,hn]
  exact if_pos h
theorem read_early {l : Lane τ} {r : Nat} {now due : τ} (hn : l.next = some due) (h : now < due) :
    l.read every r now = l := by
  rw [read,hn]
  exact if_neg (not_le.mpr h)
theorem read_over {l : Lane τ} {r : Nat} {now : τ} (hn : l.next = none) : l.read every r now = l := by
  rw [read,hn]

/-- What the readings say about the runs of a task. -/
structure Follows (due : τ) (start : Nat) (reads : List τ) (l : Lane τ) : Prop where
  within : ∀ r ∈ l.rounds, start ≤ r ∧ r < reads.length
  increasing : l.rounds.Pairwise (· < ·)
  first : ∀ r, l.rounds.head? = some r → (∃ x, reads[r]? = some x ∧ due ≤ x) ∧
    ∀ q x, start ≤ q → q < r → reads[q]? = some x → x < due
  waiting : l.rounds = [] → l.next = some due ∧ ∀ q x, start ≤ q → reads[q]? = some x → x < due
  once : every = none → l.rounds.length ≤ 1 ∧ (l.rounds ≠ [] → l.next = none)
  spaced : ∀ i, every = some i →
    l.rounds.IsChain (fun q r => ∃ x y, reads[q]? = some x ∧ reads[r]? = some y ∧ x + i ≤ y) ∧
      ∀ r, l.rounds.getLast? = some r → ∃ x, reads[r]? = some x ∧ l.next = some (x + i)

section Steps
variable {every} {due : τ} {start : Nat} {reads : List τ} {l : Lane τ}

theorem follows_start (h : reads.length ≤ start) : Follows every due start reads ⟨some due,[]⟩ := by
  refine ⟨fun _ hr => (by cases hr),.nil,fun _ hr => (by cases hr),fun _ => ⟨rfl,fun q x hq hx => ?_⟩,
    fun _ => ⟨Nat.zero_le _,fun hne => absurd rfl hne⟩,fun i _ => ⟨.nil,fun _ hr => (by cases hr)⟩⟩
  obtain ⟨hlt,-⟩ := List.getElem?_eq_some_iff.mp hx
  omega

private theorem spaced_keep {i : τ} {q r : Nat} (now : τ) (h : ∃ x y, reads[q]? = some x ∧ reads[r]? = some y ∧ x + i ≤ y) :
    ∃ x y, (reads ++ [now])[q]? = some x ∧ (reads ++ [now])[r]? = some y ∧ x + i ≤ y := by
  obtain ⟨x,y,hx,hy,hle⟩ := h
  exact ⟨x,y,get_keep now hx,get_keep now hy,hle⟩

/-- A reading at which the task does not run: it is over, or its time is later. -/
theorem Follows.skip (h : Follows every due start reads l) {now : τ} (hnow : ∀ d, l.next = some d → now < d) :
    Follows every due start (reads ++ [now]) l := by
  have hfirst : ∀ q r x, r ∈ l.rounds → q < r → (reads ++ [now])[q]? = some x → reads[q]? = some x := fun q r x hr hq hx => by
    rwa [List.getElem?_append_left (hq.trans (h.within r hr).2)] at hx
  refine ⟨fun r hr => ⟨(h.within r hr).1,?_⟩,h.increasing,fun r hr => ⟨?_,fun q x hq hqr hx => ?_⟩,fun he => ⟨(h.waiting he).1,?_⟩,
    h.once,fun i hi => ⟨(h.spaced i hi).1.imp fun _ _ => spaced_keep now,fun r hr => ?_⟩⟩
  · rw [List.length_append]
    exact Nat.lt_add_right _ (h.within r hr).2
  · obtain ⟨x,hx,hle⟩ := (h.first r hr).1
    exact ⟨x,get_keep now hx,hle⟩
  · exact (h.first r hr).2 q x hq hqr (hfirst q r x (List.mem_of_mem_head? hr) hqr hx)
  · intro q x hq hx
    rcases get_append hx with hx | ⟨-,rfl⟩
    · exact (h.waiting he).2 q x hq hx
    · exact hnow due (h.waiting he).1
  · obtain ⟨x,hx,hn⟩ := (h.spaced i hi).2 r hr
    exact ⟨x,get_keep now hx,hn⟩

/-- A reading at which the task runs. -/
theorem Follows.run (h : Follows every due start reads l) (hs : start ≤ reads.length) {now d : τ} (hn : l.next = some d)
    (hd : d ≤ now) : Follows every due start (reads ++ [now]) ⟨every.map (now + ·),l.rounds ++ [reads.length]⟩ := by
  have hlen : (reads ++ [now])[reads.length]? = some now := List.getElem?_concat_length
  refine ⟨fun r hr => ?_,?_,fun r hr => ?_,fun he => absurd he (by simp),fun he => ⟨?_,fun _ => by rw [he]; rfl⟩,fun i hi => ⟨?_,?_⟩⟩
  · rw [List.length_append,List.length_singleton]
    rcases List.mem_append.mp hr with hr | hr
    · exact ⟨(h.within r hr).1,Nat.lt_succ_of_lt (h.within r hr).2⟩
    · rw [List.mem_singleton.mp hr]
      exact ⟨hs,Nat.lt_succ_self _⟩
  · refine List.pairwise_append.mpr ⟨h.increasing,List.pairwise_singleton _ _,fun r hr q hq => ?_⟩
    rw [List.mem_singleton.mp hq]
    exact (h.within r hr).2
  · cases hl : l.rounds with
    | nil =>
      -- the first run: nothing before was late enough
      obtain ⟨hnext,hwait⟩ := h.waiting hl
      obtain rfl := Option.some.inj (hn.symm.trans hnext)
      rw [hl] at hr
      obtain rfl := Option.some.inj hr
      refine ⟨⟨now,hlen,hd⟩,fun q x hq hlt hx => hwait q x hq ?_⟩
      rwa [List.getElem?_append_left hlt] at hx
    | cons r₀ rs =>
      rw [hl] at hr
      obtain rfl := Option.some.inj hr
      have hhead : l.rounds.head? = some r₀ := by rw [hl]; rfl
      obtain ⟨⟨x,hx,hle⟩,hbefore⟩ := h.first r₀ hhead
      refine ⟨⟨x,get_keep now hx,hle⟩,fun q y hq hlt hy => hbefore q y hq hlt ?_⟩
      rwa [List.getElem?_append_left (hlt.trans (h.within r₀ (List.mem_of_mem_head? hhead)).2)] at hy
  · have hnil : l.rounds = [] := by
      by_contra hne
      rw [(h.once he).2 hne] at hn
      cases hn
    rw [hnil]
    exact le_rfl
  · refine List.isChain_append.mpr ⟨(h.spaced i hi).1.imp fun _ _ => spaced_keep now,.singleton _,fun q hq r hr => ?_⟩
    obtain rfl := Option.some.inj hr
    obtain ⟨x,hx,hnext⟩ := (h.spaced i hi).2 q hq
    obtain rfl := Option.some.inj (hn.symm.trans hnext)
    exact ⟨x,now,get_keep now hx,hlen,hd⟩
  · intro r hr
    rw [List.getLast?_concat] at hr
    obtain rfl := Option.some.inj hr
    exact ⟨now,hlen,by rw [hi]; rfl⟩

/-- Every task follows the readings. -/
theorem after_follows (every : Option τ) (due : τ) (start : Nat) (reads : List τ) :
    Follows every due start reads (after every due start reads) := by
  induction reads using List.reverseRecOn with
  | nil =>
    rw [after_start every due (Nat.zero_le start)]
    exact follows_start (Nat.zero_le start)
  | append_singleton reads now ih =>
    by_cases hs : start ≤ reads.length
    · rw [after_append every due now hs]
      cases hn : (after every due start reads).next with
      | none =>
        rw [read_over every hn]
        exact ih.skip fun d hd => by cases hn.symm.trans hd
      | some d =>
        rcases le_or_gt d now with hd | hd
        · rw [read_due every hn hd]
          exact ih.run hs hn hd
        · rw [read_early every hn hd]
          refine ih.skip fun d' hd' => ?_
          obtain rfl := Option.some.inj (hn.symm.trans hd')
          exact hd
    · have hlen : (reads ++ [now]).length ≤ start := by
        rw [List.length_append,List.length_singleton]
        omega
      rw [after_start every due hlen]
      exact follows_start hlen

end Steps

end Lane
end LinuxServer.Lib
