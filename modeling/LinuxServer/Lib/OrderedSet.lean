import Mathlib

/-! Ordered sets as strictly increasing lists, with the answers that a search-tree
container gives: an insertion reports novelty, an erasure counts, and a lower
bound cuts the set in two. -/
namespace LinuxServer.Lib

/-- The elements in increasing order; the order proof keeps them distinct. -/
@[ext] structure OrderedSet (α : Type) [LinearOrder α] where
  toList : List α
  sorted : toList.Pairwise (· < ·)

namespace OrderedSet
variable {α : Type} [LinearOrder α] (s : OrderedSet α) (a b : α)

instance : Membership α (OrderedSet α) := ⟨fun s a => a ∈ s.toList⟩
instance : Decidable (a ∈ s) := inferInstanceAs (Decidable (a ∈ s.toList))
instance : DecidableEq (OrderedSet α) := fun s t =>
  decidable_of_iff (s.toList = t.toList) ⟨OrderedSet.ext,fun h => h ▸ rfl⟩

@[simp] theorem mem_toList : a ∈ s.toList ↔ a ∈ s := Iff.rfl

def empty : OrderedSet α := ⟨[],.nil⟩
def size : Nat := s.toList.length
def first? : Option α := s.toList.head?

private theorem sorted_orderedInsert (h : a ∉ s) :
    (s.toList.orderedInsert (· ≤ ·) a).Pairwise (· < ·) := by
  have hle := (s.sorted.imp le_of_lt).orderedInsert a _
  have hnd : (s.toList.orderedInsert (· ≤ ·) a).Nodup :=
    (List.perm_orderedInsert _ a s.toList).nodup_iff.mpr
      (List.nodup_cons.mpr ⟨h,s.sorted.imp ne_of_lt⟩)
  exact (hle.and hnd).imp fun h => lt_of_le_of_ne h.1 h.2

/-- Insert unless present, and say whether the element is new. -/
def insert : OrderedSet α × Bool :=
  if h : a ∈ s then (s,false)
  else (⟨s.toList.orderedInsert (· ≤ ·) a,s.sorted_orderedInsert a h⟩,true)

/-- Remove the element, and count the removals. -/
def erase : OrderedSet α × Nat :=
  (⟨s.toList.erase a,s.sorted.sublist List.erase_sublist⟩,if a ∈ s then 1 else 0)

/-- The elements before the lower bound of the given one. -/
def before : List α := s.toList.takeWhile (· < a)

/-- What remains from the lower bound on. -/
def onward : OrderedSet α :=
  ⟨s.toList.dropWhile (· < a),s.sorted.sublist (List.dropWhile_sublist _)⟩

theorem nodup : s.toList.Nodup := s.sorted.imp ne_of_lt

@[simp] theorem not_mem_empty : a ∉ (empty : OrderedSet α) := List.not_mem_nil

theorem insert_new (h : a ∉ s) : (s.insert a).2 = true := by simp [insert,h]
theorem insert_perm (h : a ∉ s) : (s.insert a).1.toList.Perm (a :: s.toList) := by
  simpa only [insert,h,dite_false] using List.perm_orderedInsert _ a s.toList
@[simp] theorem mem_insert : b ∈ (s.insert a).1 ↔ b = a ∨ b ∈ s := by
  by_cases h : a ∈ s
  · simp only [insert,h,dite_true]
    exact ⟨.inr,fun hb => hb.elim (fun he => he ▸ h) id⟩
  · exact (s.insert_perm a h).mem_iff.trans List.mem_cons

@[simp] theorem mem_erase : b ∈ (s.erase a).1 ↔ b ≠ a ∧ b ∈ s := s.nodup.mem_erase_iff
@[simp] theorem erase_count (h : a ∈ s) : (s.erase a).2 = 1 := if_pos h
theorem erase_perm (h : a ∈ s) : s.toList.Perm (a :: (s.erase a).1.toList) :=
  List.perm_cons_erase h

theorem before_append : s.before a ++ (s.onward a).toList = s.toList := List.takeWhile_append_dropWhile

private theorem cut (l : List α) (h : l.Pairwise (· < ·)) :
    (∀ x, x ∈ l.takeWhile (· < a) ↔ x ∈ l ∧ x < a) ∧
      ∀ x, x ∈ l.dropWhile (· < a) ↔ x ∈ l ∧ a ≤ x := by
  induction l with
  | nil => simp
  | cons y l ih =>
    obtain ⟨hy,hl⟩ := List.pairwise_cons.mp h
    obtain ⟨ht,hd⟩ := ih hl
    by_cases hya : y < a
    · simp only [List.takeWhile_cons,List.dropWhile_cons,hya,decide_true,if_true,List.mem_cons,ht,hd]
      refine ⟨fun x => ⟨?_,?_⟩,fun x => ⟨fun hx => ⟨.inr hx.1,hx.2⟩,?_⟩⟩
      · rintro (rfl | hx)
        · exact ⟨.inl rfl,hya⟩
        · exact ⟨.inr hx.1,hx.2⟩
      · rintro ⟨rfl | hx,hxa⟩
        · exact .inl rfl
        · exact .inr ⟨hx,hxa⟩
      · rintro ⟨rfl | hx,hxa⟩
        · exact absurd hya (not_lt.mpr hxa)
        · exact ⟨hx,hxa⟩
    · -- everything from a non-smaller head on is at or above the bound
      have hall : ∀ x ∈ y :: l, a ≤ x := by
        intro x hx
        rcases List.mem_cons.mp hx with rfl | hx
        · exact not_lt.mp hya
        · exact (not_lt.mp hya).trans (hy x hx).le
      simp only [List.takeWhile_cons,List.dropWhile_cons,hya,decide_false]
      refine ⟨fun x => ?_,fun x => ?_⟩
      · simp only [Bool.false_eq_true,if_false,List.not_mem_nil,false_iff,not_and,not_lt]
        exact hall x
      · simp only [Bool.false_eq_true,if_false]
        exact ⟨fun hx => ⟨hx,hall x hx⟩,And.left⟩

@[simp] theorem mem_before : b ∈ s.before a ↔ b ∈ s ∧ b < a := (cut a _ s.sorted).1 b
@[simp] theorem mem_onward : b ∈ s.onward a ↔ b ∈ s ∧ a ≤ b := (cut a _ s.sorted).2 b

theorem before_sorted : (s.before a).Pairwise (· < ·) := s.sorted.sublist (List.takeWhile_sublist _)

theorem first_mem (h : s.first? = some a) : a ∈ s := List.mem_of_mem_head? h
theorem first_le (h : s.first? = some a) (hb : b ∈ s) : a ≤ b := by
  obtain ⟨l,hl⟩ := List.head?_eq_some_iff.mp h
  have hs := s.sorted
  rw [hl] at hs
  rcases List.mem_cons.mp (hl ▸ hb : b ∈ a :: l) with rfl | hb
  · exact le_rfl
  · exact ((List.pairwise_cons.mp hs).1 b hb).le
theorem first_none (h : s.first? = none) : b ∉ s := by
  have he : s.toList = [] := List.head?_eq_none_iff.mp h
  exact fun hb => by simp [← mem_toList,he] at hb
theorem exists_first (hb : b ∈ s) : ∃ a, s.first? = some a := by
  cases h : s.first? with
  | none => exact absurd hb (s.first_none b h)
  | some a => exact ⟨a,rfl⟩

end OrderedSet
end LinuxServer.Lib
