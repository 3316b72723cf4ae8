import WebServer.Response

/-!
# A client reads the response as it was meant

A client cuts the response at the first blank line and the head into lines, and
reads the length of the body from the `Content-Length` line. The method and the
path of the request appear in the body only, behind the first blank line, so
that whatever they contain the cut falls where `build_response` put it.
-/
namespace WebServer.ResponseFraming
open RequestParsing TextLines Response

/-! ## The client -/

/-- The head and the body, at the first blank line. -/
def cut (raw : Bytes) : Option (Bytes × Bytes) :=
  (find headerEnd raw).map fun n => (raw.take n,raw.drop (n+headerEnd.length))

/-- The value of a header line, if it has the given name. -/
def fieldValue (name line : Bytes) : Option Bytes :=
  if (name++text ": ").isPrefixOf line then some (line.drop (name++text ": ").length) else none

/-- What `Content-Length` announces, if one header line gives it. -/
def announced (head : Bytes) : Option ℕ :=
  match (split cr lf head).tail.filterMap (fieldValue (text "Content-Length")) with
  | [value] => readDecimal value
  | _ => none

/-! ## The first blank line -/

/-- A line that is not empty, and that no carriage return ends. -/
def Clean (line : Bytes) : Prop := cr ∉ line ∧ line ≠ []

theorem Clean.append {line rest : Bytes} (h : Clean line) (hrest : cr ∉ rest) :
    Clean (line++rest) :=
  ⟨by simp [h.1,hrest],by simp [h.2]⟩

section Blank
variable {line rest : Bytes} {ls : List Bytes}

theorem find_append (h : cr ∉ line) (rest : Bytes) :
    find headerEnd (line++rest) = (find headerEnd rest).map (·+line.length) := by
  induction line with
  | nil => simp
  | cons b line ih =>
      rw [List.mem_cons,not_or] at h
      have hb : ¬ headerEnd.isPrefixOf (b::(line++rest)) = true := by
        simp [headerEnd,List.isPrefixOf,h.1]
      rw [List.cons_append,find,if_neg hb,ih h.2,Option.map_map,List.length_cons]
      congr 1

/-- The end of a line in front of a line that is not empty. -/
theorem find_crlf {b : UInt8} (hb : b ≠ cr) (rest : Bytes) :
    find headerEnd (cr::lf::b::rest) = (find headerEnd (b::rest)).map (·+2) := by
  have h₁ : ¬ headerEnd.isPrefixOf (cr::lf::b::rest) = true := by
    simp [headerEnd,List.isPrefixOf,Ne.symm hb]
  have h₂ : ¬ headerEnd.isPrefixOf (lf::b::rest) = true := by
    simp [headerEnd,List.isPrefixOf,cr,lf]
  rw [find,if_neg h₁,find,if_neg h₂,Option.map_map]
  rfl

/-- The blank line behind nonempty lines is the first one. -/
theorem find_join (hls : ls ≠ []) (hclean : ∀ line ∈ ls, Clean line) (body : Bytes) :
    find headerEnd (join cr lf ls++headerEnd++body) = some (join cr lf ls).length := by
  induction ls with
  | nil => exact (hls rfl).elim
  | cons line ls ih =>
      obtain ⟨hline,-⟩ := hclean line List.mem_cons_self
      cases ls with
      | nil =>
          have hjoin : join cr lf [line] = line := by simp [join,List.intercalate]
          rw [hjoin,List.append_assoc,find_append hline]
          simp [headerEnd,find,List.isPrefixOf]
      | cons line' ls =>
          have hrest := ih (List.cons_ne_nil line' ls)
            fun l hl => hclean l (List.mem_cons_of_mem _ hl)
          obtain ⟨hline',hne⟩ := hclean line' (by simp)
          obtain ⟨b,l,rfl⟩ := List.exists_cons_of_ne_nil hne
          have hb : b ≠ cr := fun h => hline' (by simp [h])
          obtain ⟨tail,htail⟩ : ∃ tail, join cr lf ((b::l)::ls) = b::tail := by
            cases ls with
            | nil => exact ⟨l,by simp [join,List.intercalate]⟩
            | cons l' ls => exact ⟨_,by rw [join_cons_cons,List.cons_append]⟩
          rw [htail] at hrest
          rw [join_cons_cons,htail,List.append_assoc,List.append_assoc,find_append hline]
          simp only [List.cons_append]
          rw [find_crlf hb]
          simp only [List.cons_append,List.append_assoc] at hrest
          rw [hrest]
          simp
          omega

theorem cut_join (hls : ls ≠ []) (hclean : ∀ line ∈ ls, Clean line) (body : Bytes) :
    cut (join cr lf ls++headerEnd++body) = some (join cr lf ls,body) := by
  rw [cut,find_join hls hclean,Option.map_some,List.append_assoc,List.take_left,
    ← List.append_assoc,← List.length_append,List.drop_left]

end Blank

/-! ## The head -/

def statusLine (page : Page) : Bytes :=
  text "HTTP/1.1 "++toDecimal page.statusCode++text " "++page.statusMsg

def contentTypeLine (page : Page) : Bytes :=
  text "Content-Type: "++page.contentType++text "; charset=utf-8"

def contentLengthLine (page : Page) : Bytes :=
  text "Content-Length: "++toDecimal page.body.length

def connectionLine : Bytes := text "Connection: close"

def headLines (page : Page) : List Bytes :=
  [statusLine page,contentTypeLine page,contentLengthLine page,connectionLine]

theorem buildResponse_eq (req : HttpRequest) : buildResponse req =
    join cr lf (headLines (route req))++headerEnd++(route req).body := by
  have hcrlf : text "\r\n" = [cr,lf] := by decide
  have hcharset : text "; charset=utf-8\r\n" = text "; charset=utf-8"++[cr,lf] := by decide
  have hclose : text "Connection: close\r\n" = text "Connection: close"++[cr,lf] := by decide
  simp only [buildResponse,hcrlf,hcharset,hclose,headLines,join_cons_cons,statusLine,
    contentTypeLine,contentLengthLine,connectionLine,headerEnd]
  simp [join,List.intercalate]

/-- The routing decides between three content types and status messages. -/
theorem route_cases (req : HttpRequest) :
    ((route req).contentType = text "text/html" ∨
      (route req).contentType = text "application/json") ∧
    ((route req).statusMsg = text "OK" ∨ (route req).statusMsg = text "Not Found") := by
  unfold route
  split_ifs <;> simp

theorem cr_not_mem_toDecimal (n : ℕ) : cr ∉ toDecimal n := by
  intro h
  have hdigit := (mem_toDecimal h).1
  simp [cr] at hdigit

theorem headLines_clean (req : HttpRequest) : ∀ line ∈ headLines (route req), Clean line := by
  obtain ⟨htype,hmsg⟩ := route_cases req
  have htype : cr ∉ (route req).contentType := by rcases htype with h | h <;> rw [h] <;> decide
  have hmsg : cr ∉ (route req).statusMsg := by rcases hmsg with h | h <;> rw [h] <;> decide
  have hstatus : Clean (text "HTTP/1.1 ") := ⟨by decide,by decide⟩
  have hcontentType : Clean (text "Content-Type: ") := ⟨by decide,by decide⟩
  have hlength : Clean (text "Content-Length: ") := ⟨by decide,by decide⟩
  have hconnection : Clean connectionLine := ⟨by decide,by decide⟩
  intro line hline
  simp only [headLines,List.mem_cons,List.not_mem_nil,or_false] at hline
  rcases hline with rfl | rfl | rfl | rfl
  · exact ((hstatus.append (cr_not_mem_toDecimal _)).append (by decide)).append hmsg
  · exact (hcontentType.append htype).append (by decide)
  · exact hlength.append (cr_not_mem_toDecimal _)
  · exact hconnection

theorem split_head (req : HttpRequest) :
    split cr lf (join cr lf (headLines (route req))) = headLines (route req) :=
  split_join (fun line hline => (headLines_clean req line hline).1)
    (List.cons_ne_nil _ _)

theorem cut_buildResponse (req : HttpRequest) : cut (buildResponse req) =
    some (join cr lf (headLines (route req)),(route req).body) := by
  rw [buildResponse_eq]
  exact cut_join (List.cons_ne_nil _ _) (headLines_clean req) _

/-! ## The announced length -/

theorem fieldValue_self (name value : Bytes) :
    fieldValue name (name++text ": "++value) = some value := by
  rw [fieldValue,if_pos (List.isPrefixOf_iff_prefix.mpr (List.prefix_append ..)),List.drop_left]

/-- A line that starts otherwise does not have the name. -/
theorem fieldValue_other {name start : Bytes} (hlen : start.length ≤ (name++text ": ").length)
    (h : ¬ start <+: name++text ": ") (rest : Bytes) : fieldValue name (start++rest) = none := by
  apply if_neg
  intro hpre
  exact h (List.prefix_of_prefix_length_le (List.prefix_append ..)
    (List.isPrefixOf_iff_prefix.mp hpre) hlen)

theorem announced_head (req : HttpRequest) :
    announced (join cr lf (headLines (route req))) = some (route req).body.length := by
  have hname : text "Content-Length: " = text "Content-Length"++text ": " := by decide
  have htype : fieldValue (text "Content-Length") (contentTypeLine (route req)) = none := by
    rw [contentTypeLine,List.append_assoc]
    exact fieldValue_other (by decide) (by decide) _
  have hlength : fieldValue (text "Content-Length") (contentLengthLine (route req)) =
      some (toDecimal (route req).body.length) := by
    rw [contentLengthLine,hname]
    exact fieldValue_self _ _
  have hconnection : fieldValue (text "Content-Length") connectionLine = none := by decide
  rw [announced,split_head]
  simp only [headLines,List.tail_cons,List.filterMap_cons,htype,hlength,hconnection,
    List.filterMap_nil,readDecimal_toDecimal]

/-- The method enters a page through its body only. -/
theorem headLines_congr {req req' : HttpRequest} (hpath : req'.path = req.path)
    (hmethod : req'.method.length = req.method.length) :
    headLines (route req') = headLines (route req) := by
  unfold route
  rw [hpath]
  split_ifs <;>
    simp [headLines,statusLine,contentTypeLine,contentLengthLine,indexBody,dataBody,hpath,hmethod]

/-- Cut at its first blank line, the response gives a status line and three header
lines, whose `Content-Length` is the number of bytes behind the cut, and these
bytes are the body of the request's page. The head depends only on the path and
on the length of the method. -/
theorem response_is_framed (req : HttpRequest) : ∃ head : Bytes,
    cut (buildResponse req) = some (head,(route req).body) ∧
    split cr lf head = [statusLine (route req),contentTypeLine (route req),
      contentLengthLine (route req),connectionLine] ∧
    announced head = some (route req).body.length ∧
    ∀ req' : HttpRequest, req'.path = req.path → req'.method.length = req.method.length →
      cut (buildResponse req') = some (head,(route req').body) := by
  refine ⟨_,cut_buildResponse req,split_head req,announced_head req,fun req' hpath hmethod => ?_⟩
  rw [cut_buildResponse,headLines_congr hpath hmethod]

end WebServer.ResponseFraming
