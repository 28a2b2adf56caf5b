/-
  Line-oriented text.

  A text is read line by line: it is split at `\n`, one `\r` before it is dropped, and
  blank lines are skipped.

  * `split_join`: the lines of a text that ends each of them by `\r\n`.
  * `starts_join`, `starts_inserted`: how many lines of a text begin with a tag, if each
    line is given as a text, and if foreign text is inserted into a line.
-/
import Mathlib.Algebra.GroupWithZero.Nat
import Mathlib.Data.List.Basic

namespace Lines

/-- One `\r` less at the end. -/
def stripCr (line : List Char) : List Char :=
  if line.getLast? = some '\r' then line.dropLast else line

/-- The lines of a text that are not blank. -/
def split (text : List Char) : List (List Char) :=
  ((text.splitOn '\n').map stripCr).filter (· ≠ [])

/-- The text of lines that end by `\r\n`. -/
def join (lines : List (List Char)) : List Char := lines.flatMap (· ++ ['\r', '\n'])

/-- The lines that begin with a tag. -/
def tagged (tag text : List Char) : List (List Char) := (split text).filter (tag.isPrefixOf ·)

/-! ## Splitting -/

variable {text line tag : List Char} {lines : List (List Char)}

@[simp] theorem stripCr_concat (line : List Char) : stripCr (line ++ ['\r']) = line := by
  simp [stripCr]

@[simp] theorem join_nil : join [] = [] := rfl

@[simp] theorem join_cons (line : List Char) (lines : List (List Char)) :
    join (line :: lines) = line ++ '\r' :: '\n' :: join lines := by
  simp [join]

/-- A text is one line, or a line and a text after it. -/
theorem text_induction {P : List Char → Prop} (one : ∀ line, '\n' ∉ line → P line)
    (more : ∀ line text, '\n' ∉ line → P text → P (line ++ '\n' :: text)) (text : List Char) :
    P text := by
  induction hn : text.length using Nat.strongRecOn generalizing text with
  | ind n ih =>
    by_cases h : '\n' ∈ text
    · obtain ⟨line, rest, rfl, hline⟩ := List.eq_append_cons_of_mem h
      refine more line rest hline (ih _ ?_ rest rfl)
      rw [← hn, List.length_append, List.length_cons]
      omega
    · exact one text h

theorem split_append (a b : List Char) : split (a ++ '\n' :: b) = split a ++ split b := by
  rw [split, List.splitOn_append_cons_self, List.map_append, List.filter_append]
  rfl

theorem split_concat (h : '\n' ∉ line) (hne : line ≠ []) : split (line ++ ['\r']) = [line] := by
  have hcr : '\n' ∉ line ++ ['\r'] := by simp [h]
  rw [split, List.splitOn_eq_singleton hcr]
  simp [hne]

theorem mem_splitOn {piece : List Char} (h : piece ∈ text.splitOn '\n') : '\n' ∉ piece := by
  induction text using text_induction with
  | one line hline =>
    rw [List.splitOn_eq_singleton hline, List.mem_singleton] at h
    exact h ▸ hline
  | more line text hline ih =>
    rw [List.splitOn_append_cons_self_of_not_mem hline, List.mem_cons] at h
    rcases h with rfl | h
    · exact hline
    · exact ih h

theorem mem_stripCr {c : Char} (h : c ∈ stripCr line) : c ∈ line := by
  unfold stripCr at h
  split at h
  · exact (List.dropLast_sublist line).subset h
  · exact h

theorem mem_split (h : line ∈ split text) : '\n' ∉ line ∧ line ≠ [] := by
  rw [split, List.mem_filter, List.mem_map] at h
  obtain ⟨⟨piece, hpiece, rfl⟩, hne⟩ := h
  exact ⟨fun hn => mem_splitOn hpiece (mem_stripCr hn), by simpa using hne⟩

/-- **The lines of a joined text** are the lines. -/
theorem split_join (h : ∀ line ∈ lines, '\n' ∉ line ∧ line ≠ []) : split (join lines) = lines := by
  induction lines with
  | nil => rfl
  | cons line lines ih =>
    rw [List.forall_mem_cons] at h
    rw [join_cons, List.append_cons, split_append, split_concat h.1.1 h.1.2, ih h.2]
    rfl

/-- A line of its own is read back. -/
theorem mem_split_join (h : line ∈ lines) (hn : '\n' ∉ line) (hne : line ≠ []) :
    line ∈ split (join lines) := by
  induction lines with
  | nil => cases h
  | cons other lines ih =>
    rw [join_cons, List.append_cons, split_append, List.mem_append]
    rcases List.mem_cons.1 h with rfl | h
    · rw [split_concat hn hne]
      exact Or.inl (List.mem_singleton_self _)
    · exact Or.inr (ih h)

/-! ## Counting -/

/-- How many lines begin with a tag. -/
def starts (tag text : List Char) : ℕ := (text.splitOn '\n').countP (tag.isPrefixOf ·)

/-- How many lines after the first begin with a tag. -/
def inserted (tag text : List Char) : ℕ := (text.splitOn '\n').tail.countP (tag.isPrefixOf ·)

@[simp] theorem inserted_nil : inserted tag [] = 0 := rfl

/-- What follows a line cannot complete a tag in it. -/
theorem isPrefixOf_append {suffix : List Char} (h : ∀ c ∈ suffix.head?, c ∉ tag) :
    tag.isPrefixOf (line ++ suffix) = tag.isPrefixOf line := by
  rw [Bool.eq_iff_iff, List.isPrefixOf_iff_prefix, List.isPrefixOf_iff_prefix]
  constructor
  · intro hp
    rcases List.prefix_or_prefix_of_prefix hp (List.prefix_append line suffix) with hle | hle
    · exact hle
    · obtain ⟨rest, rfl⟩ := hle
      cases rest with
      | nil => simp
      | cons c rest =>
        rw [List.prefix_append_right_inj] at hp
        obtain ⟨more, rfl⟩ := hp
        exact absurd (by simp) (h c (by simp))
  · intro hp
    exact hp.trans (List.prefix_append line suffix)

theorem isPrefixOf_stripCr (h : '\r' ∉ tag) :
    tag.isPrefixOf (stripCr line) = tag.isPrefixOf line := by
  by_cases hlast : line.getLast? = some '\r'
  · obtain ⟨rest, rfl⟩ := List.getLast?_eq_some_iff.1 hlast
    rw [stripCr_concat]
    exact (isPrefixOf_append (by simpa using h)).symm
  · rw [stripCr, if_neg hlast]

theorem length_tagged (h : '\r' ∉ tag) (hne : tag ≠ []) :
    (tagged tag text).length = starts tag text := by
  rw [tagged, ← List.countP_eq_length_filter, split, List.countP_filter, List.countP_map, starts]
  refine List.countP_congr fun piece _ => ?_
  simp only [Function.comp_apply, Bool.and_eq_true, decide_eq_true_eq, isPrefixOf_stripCr h]
  refine and_iff_left_of_imp fun hp hnil => hne ?_
  rw [← isPrefixOf_stripCr h, hnil] at hp
  simpa using hp

theorem starts_append (a b : List Char) :
    starts tag (a ++ '\n' :: b) = starts tag a + starts tag b := by
  rw [starts, List.splitOn_append_cons_self, List.countP_append]
  rfl

theorem starts_line (h : '\n' ∉ line) : starts tag line = (tag.isPrefixOf line).toNat := by
  rw [starts, List.splitOn_eq_singleton h, List.countP_singleton]
  cases tag.isPrefixOf line <;> rfl

theorem starts_suffix {suffix : List Char} (hn : '\n' ∉ suffix)
    (h : ∀ c ∈ suffix.head?, c ∉ tag) : starts tag (text ++ suffix) = starts tag text := by
  induction text using text_induction with
  | one line hline =>
    rw [starts_line (by simp [hline, hn]), starts_line hline, isPrefixOf_append h]
  | more line text hline ih =>
    rw [List.append_assoc, List.cons_append, starts_append, starts_append, ih]

/-- **Lines inserted into a line**: the tags that the inserted text brings are those of its
    lines after the first. -/
theorem starts_inserted {before suffix : List Char} {b : Bool} (hb : '\n' ∉ before)
    (htag : ∀ rest, tag.isPrefixOf (before ++ rest) = b) (hn : '\n' ∉ suffix)
    (h : ∀ c ∈ suffix.head?, c ∉ tag) :
    starts tag (before ++ (text ++ suffix)) = b.toNat + inserted tag text := by
  induction text using text_induction with
  | one line hline =>
    rw [starts_line (by simp [hb, hline, hn]), htag, inserted, List.splitOn_eq_singleton hline]
    rfl
  | more line text hline _ =>
    have hsplit : before ++ (line ++ '\n' :: text ++ suffix) =
        (before ++ line) ++ '\n' :: (text ++ suffix) := by simp
    rw [hsplit, starts_append, starts_line (by simp [hb, hline]), htag, starts_suffix hn h,
      inserted, List.splitOn_append_cons_self_of_not_mem hline]
    rfl

theorem starts_join (h : '\r' ∉ tag) (hne : tag ≠ []) :
    starts tag (join lines) = (lines.map (starts tag)).sum := by
  induction lines with
  | nil =>
    cases tag with
    | nil => exact absurd rfl hne
    | cons c tag => rfl
  | cons line lines ih =>
    rw [join_cons, List.append_cons, starts_append, starts_suffix (by simp) (by simpa using h), ih,
      List.map_cons, List.sum_cons]

end Lines
