import Mathlib.Data.List.Basic

/-!
# Lines and decimal numbers

A text is cut into lines at a terminator of two symbols `a`, `b`. Lines which do
not contain `a` are recovered from the text that joins them. Decimal numbers are
written with the digits of ASCII, without leading zeros, and read digit by digit.
-/
namespace WebServer.TextLines

section Lines
variable {α : Type*} [DecidableEq α] (a b : α)

/-- The pieces between the terminators. -/
def split : List α → List (List α)
  | [] => [[]]
  | [x] => [[x]]
  | x::y::l => if x = a ∧ y = b then []::split l else (split (y::l)).modifyHead (x::·)

def join (ls : List (List α)) : List α := [a,b].intercalate ls

variable {a b} {l : List α} {ls : List (List α)}

theorem split_of_not_mem (h : a ∉ l) : split a b l = [l] := by
  induction l with
  | nil => rfl
  | cons x l ih =>
      rw [List.mem_cons,not_or] at h
      cases l with
      | nil => rfl
      | cons y l => rw [split,if_neg (fun hx => h.1 hx.1.symm),ih h.2,List.modifyHead_cons]

theorem split_append (h : a ∉ l) (rest : List α) :
    split a b (l++a::b::rest) = l::split a b rest := by
  induction l with
  | nil => rw [List.nil_append,split,if_pos ⟨rfl,rfl⟩]
  | cons x l ih =>
      rw [List.mem_cons,not_or] at h
      obtain ⟨y,l',hl⟩ : ∃ y l', l++a::b::rest = y::l' :=
        List.exists_cons_of_ne_nil (by simp)
      rw [List.cons_append,hl,split,if_neg (fun hx => h.1 hx.1.symm),← hl,ih h.2,
        List.modifyHead_cons]

omit [DecidableEq α] in
theorem join_cons_cons (l l' : List α) (ls : List (List α)) :
    join a b (l::l'::ls) = l++a::b::join a b (l'::ls) := by
  simp [join,List.intercalate,List.intersperse]

theorem split_join (h : ∀ l ∈ ls, a ∉ l) (hne : ls ≠ []) : split a b (join a b ls) = ls := by
  induction ls with
  | nil => exact (hne rfl).elim
  | cons l ls ih =>
      have hl : a ∉ l := h l List.mem_cons_self
      cases ls with
      | nil =>
          have hjoin : join a b [l] = l := by simp [join,List.intercalate]
          rw [hjoin,split_of_not_mem hl]
      | cons l' ls =>
          rw [join_cons_cons,split_append hl,
            ih (fun x hx => h x (List.mem_cons_of_mem _ hx)) (List.cons_ne_nil l' ls)]

end Lines

/-! ## Decimal numbers -/

def toDecimal (n : ℕ) : List UInt8 := (Nat.toDigits 10 n).map fun c => UInt8.ofNat c.toNat

def isDigit (b : UInt8) : Bool := 48 ≤ b.toNat && b.toNat ≤ 57

/-- The value of a nonempty string of digits. -/
def readDecimal (bytes : List UInt8) : Option ℕ :=
  if !bytes.isEmpty && bytes.all isDigit then
    some (bytes.foldl (fun n b => 10*n+(b.toNat-48)) 0)
  else none

theorem digit_of_mem {n : ℕ} {c : Char} (h : c ∈ Nat.toDigits 10 n) :
    48 ≤ c.toNat ∧ c.toNat ≤ 57 := by
  have hdigit := Nat.isDigit_of_mem_toDigits (by decide) (by decide) h
  simp only [Char.isDigit,Bool.and_eq_true,decide_eq_true_eq] at hdigit
  exact hdigit

theorem mem_toDecimal {n : ℕ} {b : UInt8} (h : b ∈ toDecimal n) :
    48 ≤ b.toNat ∧ b.toNat ≤ 57 := by
  obtain ⟨c,hc,rfl⟩ := List.mem_map.mp h
  have hdigit := digit_of_mem hc
  rw [UInt8.toNat_ofNat']
  omega

theorem toDecimal_ne_nil (n : ℕ) : toDecimal n ≠ [] := by
  simp [toDecimal,Nat.toDigits_ne_nil]

theorem foldl_digits (cs : List Char) (hcs : ∀ c ∈ cs, c.toNat < 256) (n : ℕ) :
    (cs.map fun c => UInt8.ofNat c.toNat).foldl (fun n b => 10*n+(b.toNat-48)) n =
      Nat.ofDigitChars 10 cs n := by
  induction cs generalizing n with
  | nil => simp
  | cons c cs ih =>
      have hc : (UInt8.ofNat c.toNat).toNat = c.toNat := by
        rw [UInt8.toNat_ofNat']
        exact Nat.mod_eq_of_lt (hcs c List.mem_cons_self)
      rw [List.map_cons,List.foldl_cons,hc,Nat.ofDigitChars_cons]
      exact ih (fun x hx => hcs x (List.mem_cons_of_mem _ hx)) _

theorem readDecimal_toDecimal (n : ℕ) : readDecimal (toDecimal n) = some n := by
  have hdigits : (toDecimal n).all isDigit = true := by
    rw [List.all_eq_true]
    intro b hb
    simpa [isDigit] using mem_toDecimal hb
  have hread : (!(toDecimal n).isEmpty && (toDecimal n).all isDigit) = true := by
    simp [hdigits,toDecimal_ne_nil]
  rw [readDecimal,if_pos hread,toDecimal,foldl_digits,
    Nat.ofDigitChars_toDigits (by decide) (by decide)]
  intro c hc
  have hdigit := digit_of_mem hc
  omega

end WebServer.TextLines
