import Mathlib

/-! Chunks that a stream of pieces is packed into, no piece in two chunks. -/
namespace LinuxServer.Lib
variable {α : Type} {chunks pieces : List (List α)}

/-- Every chunk is made of whole pieces, in order. -/
def Chunked (chunks pieces : List (List α)) : Prop :=
  ∃ groups : List (List (List α)), groups.flatten = pieces ∧ groups.map List.flatten = chunks

namespace Chunked

theorem nil : Chunked ([] : List (List α)) [] := ⟨[],rfl,rfl⟩

theorem flatten_eq (h : Chunked chunks pieces) : chunks.flatten = pieces.flatten := by
  obtain ⟨groups,rfl,rfl⟩ := h
  exact List.flatten_flatten.symm

/-- A new chunk, with nothing in it yet. -/
theorem snoc_nil (h : Chunked chunks pieces) : Chunked (chunks ++ [[]]) pieces := by
  obtain ⟨groups,rfl,rfl⟩ := h
  exact ⟨groups ++ [[]],by simp,by simp⟩

/-- A piece goes into the last chunk. -/
theorem snoc_piece {chunk : List α} (h : Chunked (chunks ++ [chunk]) pieces) (piece : List α) :
    Chunked (chunks ++ [chunk ++ piece]) (pieces ++ [piece]) := by
  obtain ⟨groups,rfl,hchunks⟩ := h
  obtain ⟨before,last,rfl,rfl,hlast⟩ := List.map_eq_append_iff.mp hchunks
  obtain ⟨group,rfl,rfl⟩ := List.map_eq_singleton_iff.mp hlast
  exact ⟨before ++ [group ++ [piece]],by simp,by simp⟩

theorem append {chunks' pieces' : List (List α)} (h : Chunked chunks pieces) (h' : Chunked chunks' pieces') :
    Chunked (chunks ++ chunks') (pieces ++ pieces') := by
  obtain ⟨groups,rfl,rfl⟩ := h
  obtain ⟨groups',rfl,rfl⟩ := h'
  exact ⟨groups ++ groups',List.flatten_append,List.map_append⟩

/-- Between two chunks there is no piece. -/
theorem split {before after : List (List α)} (h : Chunked (before ++ after) pieces) :
    ∃ early late, pieces = early ++ late ∧ Chunked before early ∧ Chunked after late := by
  obtain ⟨groups,rfl,hchunks⟩ := h
  obtain ⟨g,g',rfl,rfl,rfl⟩ := List.map_eq_append_iff.mp hchunks
  exact ⟨g.flatten,g'.flatten,List.flatten_append,⟨g,rfl,rfl⟩,⟨g',rfl,rfl⟩⟩

/-- Each piece for itself. -/
theorem refl (pieces : List (List α)) : Chunked pieces pieces := by
  refine ⟨pieces.map ([·]),?_,?_⟩
  · exact List.flatMap_singleton' pieces
  · rw [List.map_map]
    exact List.map_id'' (fun piece => List.append_nil piece) pieces

/-- One chunk for all of them. -/
theorem single (pieces : List (List α)) : Chunked [pieces.flatten] pieces := ⟨[pieces],List.append_nil pieces,rfl⟩

/-- Chunks packed into chunks. -/
theorem trans {large : List (List α)} (h : Chunked large chunks) (h' : Chunked chunks pieces) : Chunked large pieces := by
  obtain ⟨groups,rfl,rfl⟩ := h
  induction groups generalizing pieces with
  | nil =>
    obtain ⟨inner,rfl,hinner⟩ := h'
    rw [List.map_eq_nil_iff.mp hinner]
    exact nil
  | cons group groups ih =>
    obtain ⟨early,late,rfl,hearly,hlate⟩ := split h'
    have hfirst : Chunked [group.flatten] early := by
      rw [hearly.flatten_eq]
      exact single early
    exact hfirst.append (ih hlate)

end Chunked
end LinuxServer.Lib
