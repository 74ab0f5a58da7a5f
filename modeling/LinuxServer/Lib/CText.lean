import LinuxServer.Lib.Machine

/-! Text in memory: strings up to a terminator, and the formatted prints that
write no more than the room they are given. -/
namespace LinuxServer.Lib

def terminator : Char := Char.ofNat 0

/-- Characters that can stand in front of a terminator. -/
structure CString where
  chars : List Char
  noTerminator : terminator ∉ chars
  deriving DecidableEq

namespace CString

def strlen (s : CString) : Nat := s.chars.length

/-- The string at the start of memory, which has to end in it. -/
def ofMemory (mem : List Char) : Except Halt CString :=
  if terminator ∈ mem then
    .ok ⟨mem.takeWhile fun c => c ≠ terminator,fun h => by simpa using List.mem_takeWhile_imp h⟩
  else .error .outOfBounds

theorem ofMemory_append (s : CString) (rest : List Char) : ofMemory (s.chars ++ terminator :: rest) = .ok s := by
  have hmem : terminator ∈ s.chars ++ terminator :: rest := List.mem_append_right _ List.mem_cons_self
  have htake : (s.chars ++ terminator :: rest).takeWhile (fun c => c ≠ terminator) = s.chars := by
    rw [List.takeWhile_append_of_pos,List.takeWhile_cons_of_neg (by simp),List.append_nil]
    intro c hc
    exact decide_eq_true fun h => s.noTerminator (h ▸ hc)
  rw [ofMemory,if_pos hmem]
  simp only [htake]

theorem mem_ofMemory {mem : List Char} {s : CString} (h : ofMemory mem = .ok s) {c : Char} (hc : c ∈ s.chars) : c ∈ mem := by
  rw [ofMemory] at h
  split at h
  · cases h
    exact (List.takeWhile_prefix _).subset hc
  · cases h

/-- A front of a string is a string. -/
def take (s : CString) (n : Nat) : CString := ⟨s.chars.take n,fun h => s.noTerminator (List.mem_of_mem_take h)⟩

theorem take_of_le {s : CString} {n : Nat} (h : s.strlen ≤ n) : s.take n = s := by
  obtain ⟨chars,hnot⟩ := s
  simp only [take,List.take_of_length_le (show chars.length ≤ n from h)]

end CString

/-- snprintf of a text into memory: at most size bytes with the terminator are
written, and the result is the length of the whole text. -/
def snprintf (mem : List Char) (size : Nat) (text : List Char) : Except Halt (List Char × Nat) :=
  if size = 0 then .ok (mem,text.length)
  else do
    let written := text.take (size - 1) ++ [terminator]
    ensure .outOfBounds (written.length ≤ mem.length)
    .ok (written ++ mem.drop written.length,text.length)

theorem snprintf_ok {mem : List Char} {size : Nat} (text : List Char) (hpos : 0 < size)
    (hroom : (text.take (size - 1)).length < mem.length) :
    snprintf mem size text = .ok (text.take (size - 1) ++ terminator :: mem.drop ((text.take (size - 1)).length + 1),text.length) := by
  have hfits : (text.take (size - 1) ++ [terminator]).length ≤ mem.length := by
    rw [List.length_append,List.length_singleton]
    exact hroom
  simp only [snprintf,if_neg hpos.ne',ensure_of _ hfits,ok_bind]
  rw [List.append_assoc,List.length_append,List.length_singleton]
  rfl

/-- What is in memory when snprintf has returned. -/
theorem of_snprintf_ok {mem mem' : List Char} {size : Nat} {text : List Char} {nLength : Nat} (hpos : 0 < size)
    (h : snprintf mem size text = .ok (mem',nLength)) :
    mem' = text.take (size - 1) ++ terminator :: mem.drop ((text.take (size - 1)).length + 1) := by
  have hfits : (text.take (size - 1) ++ [terminator]).length ≤ mem.length := by
    simp only [snprintf,if_neg hpos.ne',bind_ok_iff,ensure_ok_iff,exists_const] at h
    exact h.1
  rw [List.length_append,List.length_singleton] at hfits
  rw [snprintf_ok text hpos hfits] at h
  cases h
  rfl

/-- What snprintf wrote reads back as the front of the text that fits. -/
theorem ofMemory_snprintf {mem : List Char} {size : Nat} (text : CString) (hpos : 0 < size) (hroom : size ≤ mem.length) :
    ∃ mem', snprintf mem size text.chars = .ok (mem',text.strlen) ∧ mem'.length = mem.length ∧
      CString.ofMemory mem' = .ok (text.take (size - 1)) := by
  have hfront : (text.chars.take (size - 1)).length < mem.length := by
    rw [List.length_take]
    omega
  refine ⟨_,snprintf_ok text.chars hpos hfront,?_,(text.take (size - 1)).ofMemory_append _⟩
  rw [List.length_append,List.length_cons,List.length_drop]
  omega

/-- A text with room for it and its terminator reads back whole. -/
theorem ofMemory_snprintf_whole {mem : List Char} {size : Nat} {text : CString} (h : text.strlen < size) (hroom : size ≤ mem.length) :
    ∃ mem', snprintf mem size text.chars = .ok (mem',text.strlen) ∧ mem'.length = mem.length ∧
      CString.ofMemory mem' = .ok text := by
  obtain ⟨mem',hprint,hlen,hmem⟩ := ofMemory_snprintf text (Nat.zero_lt_of_lt h) hroom
  rw [CString.take_of_le (Nat.le_sub_one_of_lt h)] at hmem
  exact ⟨mem',hprint,hlen,hmem⟩

end LinuxServer.Lib
