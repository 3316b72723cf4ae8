import Mathlib.Data.List.Basic
import Mathlib.Data.List.TakeWhile

/-!
# The words of a list

The words are the maximal runs of elements which are no separators: what is
left of the pieces between the separators when the empty ones are dropped.
Reading from the left, a reader skips separators and takes the first word; it
then sees the words of what remains.
-/
namespace WebServer.Words

variable {α : Type*} (p : α → Bool)

def words (l : List α) : List (List α) := (l.splitOnP p).filter (!·.isEmpty)

@[simp] theorem words_nil : words p [] = [] := by simp [words]

variable {p}

@[simp] theorem words_cons_separator {a : α} (h : p a = true) (l : List α) :
    words p (a::l) = words p l := by
  simp [words,List.splitOnP_cons_eq_if_modifyHead,h]

theorem words_concat_separator {a : α} (h : p a = true) (l : List α) :
    words p (l++[a]) = words p l := by
  simp [words,List.splitOnP_append_cons l [] h]

/-- A nonempty run before a separator, or at the end, is a word. -/
theorem words_append {w : List α} (hw : ∀ x ∈ w, p x = false) (hne : w ≠ [])
    {rest : List α} (hrest : ∀ b ∈ rest.head?, p b = true) :
    words p (w++rest) = w::words p rest := by
  cases rest with
  | nil =>
      rw [List.append_nil,words,List.splitOnP_eq_singleton hw]
      simp [hne]
  | cons b rest =>
      have hb : p b = true := hrest b rfl
      rw [words_cons_separator hb,words,List.splitOnP_append_cons_of_forall_mem hw b hb]
      simp [hne,words]

variable (p)

theorem words_dropWhile (l : List α) : words p (l.dropWhile p) = words p l := by
  induction l with
  | nil => rfl
  | cons a l ih =>
      by_cases h : p a = true
      · rw [List.dropWhile_cons_of_pos h,ih,words_cons_separator h]
      · rw [List.dropWhile_cons_of_neg h]

theorem head_dropWhile (l : List α) {a : α} (h : (l.dropWhile p).head? = some a) :
    p a = false := by
  have hx := List.head?_dropWhile_not p l
  simpa [h] using hx

/-- Skipping separators leads to the first word. -/
theorem words_eq_cons {l : List α} (h : l.dropWhile p ≠ []) :
    words p l = (l.dropWhile p).takeWhile (!p ·)::
      words p ((l.dropWhile p).dropWhile (!p ·)) := by
  rw [← words_dropWhile]
  obtain ⟨a,rest,hd⟩ := List.exists_cons_of_ne_nil h
  have ha : p a = false := head_dropWhile p l (by rw [hd]; rfl)
  rw [hd]
  calc words p (a::rest)
      = words p ((a::rest).takeWhile (!p ·)++(a::rest).dropWhile (!p ·)) := by
        rw [List.takeWhile_append_dropWhile]
    _ = _ := by
        refine words_append ?_ (by simp [ha]) ?_
        · intro x hx
          simpa using List.mem_takeWhile_imp hx
        · intro b hb
          simpa using head_dropWhile (!p ·) (a::rest) hb

/-! ## Prefixes -/

variable {p}

theorem takeWhile_append_of_neg {l : List α} (h : ∃ a ∈ l, p a = false) (l' : List α) :
    (l++l').takeWhile p = l.takeWhile p := by
  induction l with
  | nil => simp at h
  | cons a l ih =>
      by_cases ha : p a = true
      · have hrest : ∃ b ∈ l, p b = false := by simpa [ha] using h
        rw [List.cons_append,List.takeWhile_cons_of_pos ha,List.takeWhile_cons_of_pos ha,ih hrest]
      · rw [List.cons_append,List.takeWhile_cons_of_neg ha,List.takeWhile_cons_of_neg ha]

/-- A longer list has the same first run, once the shorter one shows where it ends. -/
theorem takeWhile_of_prefix {l l' : List α} (hl : l <+: l') (h : ∃ a ∈ l, p a = false) :
    l'.takeWhile p = l.takeWhile p := by
  obtain ⟨rest,rfl⟩ := hl
  exact takeWhile_append_of_neg h rest

theorem prefix_takeWhile {l l' : List α} (hl : l <+: l') : l.takeWhile p <+: l'.takeWhile p := by
  obtain ⟨rest,rfl⟩ := hl
  by_cases h : ∀ a ∈ l, p a = true
  · rw [List.takeWhile_append_of_pos h,List.takeWhile_eq_self_iff.mpr h]
    exact List.prefix_append ..
  · have hl' := takeWhile_append_of_neg (p := p) (l := l) (by simpa using h) rest
    exact hl' ▸ List.prefix_rfl

/-- What stands behind a terminator is not seen. -/
theorem takeWhile_terminated {b : α} (hb : p b = false) (l l' : List α) :
    (l++b::l').takeWhile p = l.takeWhile p := by
  by_cases h : ∀ a ∈ l, p a = true
  · rw [List.takeWhile_append_of_pos h,List.takeWhile_eq_self_iff.mpr h,
      List.takeWhile_cons_of_neg (by simp [hb]),List.append_nil]
  · exact takeWhile_append_of_neg (by simpa using h) _

end WebServer.Words
