import WebServer.RequestParsing
import WebServer.Words

/-!
# What the parser assigns

The three extractions of `HttpRequest::parse` read off the words of the first
line, where a word that is missing leaves its member alone. The carriage return
before the line feed is whitespace, so that dropping it changes no word.

So two requests agree after parsing the same text exactly in the members for
which the line has a word; in the others the earlier contents survive.
-/
namespace WebServer.RequestLine
open RequestParsing Words

/-- A stream that is not good has no text left. -/
def Settled (s : IStream) : Prop := s.good = true ∨ s.rest = []

/-- An extraction takes the first word, and leaves the other words. -/
theorem extract_words {s : IStream} (h : Settled s) (target : Bytes) :
    (s.extract target).2 = (words isspace s.rest).headD target ∧
    words isspace (s.extract target).1.rest = (words isspace s.rest).tail ∧
    Settled (s.extract target).1 := by
  unfold IStream.extract
  by_cases hgood : s.good = true
  · rw [if_pos hgood]
    by_cases hrest : s.rest.dropWhile isspace = []
    · have hnil : words isspace s.rest = [] := by
        rw [← words_dropWhile,hrest,words_nil]
      simp [hrest,hnil,Settled]
    · rw [words_eq_cons isspace hrest]
      simp only [List.isEmpty_iff,hrest,if_false,List.headD_cons,List.tail_cons,true_and]
      cases hl : (s.rest.dropWhile isspace).dropWhile (!isspace ·) with
      | nil => exact .inr rfl
      | cons b left => exact .inl rfl
  · have hrest := h.resolve_left hgood
    rw [if_neg hgood]
    exact ⟨by simp [hrest],by simp [hrest],h⟩

theorem assign_eq_words (req : HttpRequest) (line : Bytes) : req.assign line =
    ⟨(words isspace line).getD 0 req.method,(words isspace line).getD 1 req.path,
      (words isspace line).getD 2 req.protocol,true⟩ := by
  obtain ⟨hmethod,hrest₁,hs₁⟩ := extract_words (s := ⟨line,true⟩) (.inl rfl) req.method
  obtain ⟨hpath,hrest₂,hs₂⟩ := extract_words hs₁ req.path
  obtain ⟨hprotocol,-,-⟩ := extract_words hs₂ req.protocol
  simp only [HttpRequest.assign,hmethod,hpath,hprotocol,hrest₂,hrest₁]
  rcases words isspace line with _ | ⟨a,_ | ⟨b,_ | ⟨c,l⟩⟩⟩ <;> rfl

theorem words_popCr (line : Bytes) : words isspace (popCr line) = words isspace line := by
  unfold popCr
  split_ifs with h
  · obtain ⟨front,rfl⟩ := List.getLast?_eq_some_iff.mp h
    rw [List.dropLast_concat,words_concat_separator (by decide)]
  · rfl

/-- What a complete text leaves in the request. -/
theorem parse_of_complete (req : HttpRequest) {raw : Bytes} (h : headerEnd <:+: raw) :
    req.parse raw = (true,req.assign (popCr (raw.takeWhile (· ≠ lf)))) := by
  have hfound := (find_isSome_iff headerEnd raw).mpr h
  have hne : raw.isEmpty = false := by
    cases raw with
    | nil => simp [find,headerEnd] at hfound
    | cons b bs => rfl
  obtain ⟨n,hn⟩ := Option.isSome_iff_exists.mp hfound
  simp [HttpRequest.parse,hn,getline,hne]

/-! ## Two requests, one text -/

/-- `parse` answers the same on both requests. A failure leaves both alone, a
success leaves them equal. -/
def SameResult (raw : Bytes) (r r' : HttpRequest) : Prop :=
  (r.parse raw).1 = (r'.parse raw).1 ∧
    ((r.parse raw).1 = false → (r.parse raw).2 = r ∧ (r'.parse raw).2 = r') ∧
    ((r.parse raw).1 = true → (r.parse raw).2 = (r'.parse raw).2)

/-- The tokens of the request line. -/
def tokens (raw : Bytes) : List Bytes := words isspace (raw.takeWhile (· ≠ lf))

/-- The requests agree in every member for which there is no token. -/
def Agree (line : List Bytes) (r r' : HttpRequest) : Prop :=
  (line.length < 1 → r.method = r'.method) ∧ (line.length < 2 → r.path = r'.path) ∧
    (line.length < 3 → r.protocol = r'.protocol)

theorem getD_eq_iff (l : List Bytes) (i : ℕ) (a b : Bytes) :
    l.getD i a = l.getD i b ↔ (l.length < i+1 → a = b) := by
  by_cases h : i < l.length
  · have hlen : ¬ l.length < i+1 := by omega
    simp [List.getD_eq_getElem?_getD,h,hlen]
  · have hlen : l.length < i+1 := by omega
    simp [List.getD_eq_getElem?_getD,h,hlen]

theorem parse_of_incomplete (req : HttpRequest) {raw : Bytes} (h : ¬ headerEnd <:+: raw) :
    req.parse raw = (false,req) := by
  have hfst : (req.parse raw).1 = false := by
    rw [← Bool.not_eq_true,parse_fst_iff]
    exact h
  exact Prod.ext hfst (parse_snd_of_false req hfst)

theorem sameResult_iff (raw : Bytes) (r r' : HttpRequest) :
    SameResult raw r r' ↔ (headerEnd <:+: raw → Agree (tokens raw) r r') := by
  by_cases h : headerEnd <:+: raw
  · have hresult : SameResult raw r r' ↔ r.assign (popCr (raw.takeWhile (· ≠ lf))) =
        r'.assign (popCr (raw.takeWhile (· ≠ lf))) := by
      simp [SameResult,parse_of_complete _ h]
    rw [hresult,assign_eq_words,assign_eq_words,words_popCr]
    simp only [HttpRequest.mk.injEq,getD_eq_iff,and_true,h,true_implies]
    rfl
  · simp [SameResult,parse_of_incomplete _ h,h]

/-- `parse` depends only on the text where no blank line is found, or where the
request line has its three tokens; for two given requests it is enough that they
agree in the members whose token is missing. -/
theorem parse_depends_on_text_iff (raw : Bytes) :
    ((∀ r r', SameResult raw r r') ↔ (headerEnd <:+: raw → 3 ≤ (tokens raw).length)) ∧
    ∀ r r', SameResult raw r r' ↔ (headerEnd <:+: raw → Agree (tokens raw) r r') := by
  refine ⟨⟨fun hall hend => ?_,fun hline r r' => ?_⟩,sameResult_iff raw⟩
  · have hagree := (sameResult_iff raw ⟨[],[],[],false⟩ ⟨[],[],[lf],false⟩).mp (hall _ _) hend
    by_contra hlen
    simpa using hagree.2.2 (by omega)
  · rw [sameResult_iff]
    intro hend
    have hlen := hline hend
    exact ⟨fun h => by omega,fun h => by omega,fun h => by omega⟩

/-- The text `X`, blank line, and a request that has been used for `GET / HTTP/1.1`. -/
theorem not_everyParseSame : ¬ ∀ raw r r', SameResult raw r r' := by
  intro hall
  have hsame := (hall [88,13,10,13,10] .empty
    ⟨[71,69,84],[47],[72,84,84,80,47,49,46,49],true⟩).2.2 (by decide)
  revert hsame
  decide

end WebServer.RequestLine
