import Mathlib.Data.List.Basic

/-!
# HttpRequest::parse

Texts are lists of bytes. `std::string::find`, `std::getline` and the
extraction of a string from a stream follow their documented behaviour in the
C locale; in particular an extraction that finds no token leaves its target
alone.
-/
namespace WebServer.RequestParsing

abbrev Bytes := List UInt8

def cr : UInt8 := 13
def lf : UInt8 := 10

/-- The literal `"\r\n\r\n"`. -/
def headerEnd : Bytes := [cr,lf,cr,lf]

structure HttpRequest where
  method : Bytes
  path : Bytes
  protocol : Bytes
  isComplete : Bool
  deriving DecidableEq, Repr

/-- A default-constructed request. -/
def HttpRequest.empty : HttpRequest := ⟨[],[],[],false⟩

/-- `raw.find(pattern)`: the first position at which the pattern occurs, `npos` being `none`. -/
def find (pattern : Bytes) : Bytes → Option ℕ
  | [] => if pattern.isEmpty then some 0 else none
  | b::bs =>
      if pattern.isPrefixOf (b::bs) then some 0 else (find pattern bs).map (·+1)

/-- `std::getline` on a fresh stream. It fails only if there is nothing to
extract; the delimiter is extracted and dropped. -/
def getline (raw : Bytes) : Option Bytes :=
  if raw.isEmpty then none else some (raw.takeWhile (· ≠ lf))

/-- `if (!line.empty() && line.back() == '\r') line.pop_back()`. -/
def popCr (line : Bytes) : Bytes := if line.getLast? = some cr then line.dropLast else line

/-- `std::isspace` in the C locale. -/
def isspace (b : UInt8) : Bool := b = 32 || (9 ≤ b && b ≤ 13)

/-- A string stream: the text not yet extracted, and whether the stream is `good()`. -/
structure IStream where
  rest : Bytes
  good : Bool
  deriving DecidableEq, Repr

/-- `stream >> target`. The sentry fails on a stream that is not good, and
skips leading whitespace; where no character is left the target keeps its
value. Reaching the end of the text sets `eofbit`. -/
def IStream.extract (s : IStream) (target : Bytes) : IStream × Bytes :=
  if s.good then
    let rest := s.rest.dropWhile isspace
    if rest.isEmpty then (⟨[],false⟩,target)
    else
      let left := rest.dropWhile (!isspace ·)
      (⟨left,!left.isEmpty⟩,rest.takeWhile (!isspace ·))
  else (s,target)

/-- `f >> method >> path >> protocol; is_complete = true`. -/
def HttpRequest.assign (req : HttpRequest) (line : Bytes) : HttpRequest :=
  let f := (⟨line,true⟩ : IStream)
  let a := f.extract req.method
  let b := a.1.extract req.path
  let c := b.1.extract req.protocol
  ⟨a.2,b.2,c.2,true⟩

def HttpRequest.parse (req : HttpRequest) (raw : Bytes) : Bool × HttpRequest :=
  match find headerEnd raw with
  | none => (false,req)
  | some _ =>
      match getline raw with
      | none => (false,req)
      | some line => (true,req.assign (popCr line))

/-- `find` succeeds exactly when the pattern occurs somewhere. -/
theorem find_isSome_iff (pattern raw : Bytes) :
    (find pattern raw).isSome = true ↔ pattern <:+: raw := by
  induction raw with
  | nil =>
      cases pattern <;> simp [find]
  | cons b bs ih =>
      rw [List.infix_cons_iff,← ih]
      by_cases h : pattern.isPrefixOf (b::bs) = true
      · simp [find,h,List.isPrefixOf_iff_prefix.mp h]
      · have hn : ¬ pattern <+: b::bs := fun hp => h (List.isPrefixOf_iff_prefix.mpr hp)
        simp [find,h,hn]

/-- `find` answers the first position at which the pattern occurs. -/
theorem find_eq_some_iff {pattern raw : Bytes} {n : ℕ} : find pattern raw = some n ↔
    pattern <+: raw.drop n ∧ ∀ m < n, ¬ pattern <+: raw.drop m := by
  induction raw generalizing n with
  | nil =>
      cases pattern with
      | nil =>
          cases n with
          | zero => simp [find]
          | succ n =>
              constructor
              · intro h
                cases h
              · intro h
                exact (h.2 0 (Nat.succ_pos n) List.nil_prefix).elim
      | cons a pattern => simp [find]
  | cons b bs ih =>
      by_cases h : pattern <+: b::bs
      · rw [find,if_pos (List.isPrefixOf_iff_prefix.mpr h)]
        cases n with
        | zero => simpa using h
        | succ n =>
            constructor
            · intro hzero
              cases hzero
            · intro hm
              exact (hm.2 0 (Nat.succ_pos n) h).elim
      · rw [find,if_neg (fun hp => h (List.isPrefixOf_iff_prefix.mp hp)),Option.map_eq_some_iff]
        cases n with
        | zero => simpa using h
        | succ n =>
            simp only [Nat.add_right_cancel_iff,exists_eq_right,ih,List.drop_succ_cons]
            refine and_congr_right fun _ => ⟨fun hm m hlt => ?_,fun hm m hlt => hm (m+1) (by omega)⟩
            cases m with
            | zero => exact h
            | succ m => exact hm m (by omega)

/-- A request is recognised exactly when the text contains a blank line. -/
theorem parse_fst_iff (req : HttpRequest) (raw : Bytes) :
    (req.parse raw).1 = true ↔ headerEnd <:+: raw := by
  rw [← find_isSome_iff]
  unfold HttpRequest.parse
  cases h : find headerEnd raw with
  | none => simp
  | some n =>
      cases raw with
      | nil => simp [find,headerEnd] at h
      | cons b bs => simp [getline]

/-- A text that is not recognised leaves the request alone. -/
theorem parse_snd_of_false (req : HttpRequest) {raw : Bytes} (h : (req.parse raw).1 = false) :
    (req.parse raw).2 = req := by
  unfold HttpRequest.parse at h ⊢
  cases hf : find headerEnd raw with
  | none => rfl
  | some n =>
      cases hl : getline raw with
      | none => rfl
      | some line => simp [hf,hl] at h

end WebServer.RequestParsing
