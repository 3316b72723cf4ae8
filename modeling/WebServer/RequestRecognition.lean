import WebServer.RequestSplitting

/-!
# When a request is recognised

The buffer is handed to the parser as a C string. A NUL among the received bytes
therefore hides what follows it: the connection is read until the buffer is full
or the peer closes, and a complete header behind a NUL is never recognised.
-/
namespace WebServer.RequestRecognition
open RequestParsing RequestLine Words Contexts Handler RequestSplitting

/-- The first `BUFFER_SIZE - 1` bytes of a stream. -/
def window (size : ℕ) (stream : Bytes) : Bytes := stream.take (size-1)

/-- `on_message_` is called if and only if the window contains the end of the
header; otherwise the connection is closed without a call. -/
def Recognised (size : ℕ) (stream : Bytes) (tr : Trace) : Prop :=
  (requests tr ≠ [] ↔ headerEnd <:+: window size stream) ∧
    (¬ headerEnd <:+: window size stream → requests tr = [] ∧ closings tr = 1)

/-- No NUL stands in front of the first end of a header. -/
def Unhidden (text : Bytes) : Prop := ∀ n, find headerEnd text = some n → 0 ∉ text.take n

/-- A C string keeps the first occurrence of a header end, or none. -/
theorem infix_cString_iff (text : Bytes) :
    headerEnd <:+: cString text ↔ ∃ n, find headerEnd text = some n ∧ 0 ∉ text.take n := by
  constructor
  · intro h
    have hpre : cString text <+: text := List.takeWhile_prefix _
    have htext : headerEnd <:+: text := h.trans hpre.isInfix
    obtain ⟨n,hn⟩ := Option.isSome_iff_exists.mp ((find_isSome_iff headerEnd text).mpr htext)
    refine ⟨n,hn,?_⟩
    obtain ⟨front,back,hsplit⟩ := h
    have hle : n ≤ front.length := by
      by_contra hlt
      refine (find_eq_some_iff.mp hn).2 front.length (Nat.not_le.mp hlt) ?_
      obtain ⟨rest,hrest⟩ := hpre
      rw [← hrest,← hsplit,List.append_assoc,List.append_assoc,List.drop_left]
      exact List.prefix_append ..
    have hlen : (text.take n).length ≤ (cString text).length := by
      rw [← hsplit]
      simp only [List.length_append,List.length_take]
      omega
    have htake : text.take n <+: cString text :=
      List.prefix_of_prefix_length_le (List.take_prefix n text) hpre hlen
    intro hmem
    simpa using List.mem_takeWhile_imp (htake.subset hmem)
  · rintro ⟨n,hn,hfree⟩
    obtain ⟨rest,hrest⟩ := (find_eq_some_iff.mp hn).1
    have hend : ∀ b ∈ headerEnd, decide (b ≠ 0) = true := by simp [headerEnd,cr,lf]
    have hclean : ∀ b ∈ text.take n++headerEnd, decide (b ≠ 0) = true := by
      intro b hb
      rcases List.mem_append.mp hb with hb | hb
      · simpa using fun h0 : b = 0 => hfree (h0 ▸ hb)
      · exact hend b hb
    have hstring : cString text = text.take n++headerEnd++rest.takeWhile (· ≠ 0) := by
      calc cString text
          = cString (text.take n++(headerEnd++rest)) := by
            rw [hrest,List.take_append_drop]
        _ = cString (text.take n++headerEnd++rest) := by rw [List.append_assoc]
        _ = _ := List.takeWhile_append_of_pos hclean
    exact ⟨_,_,hstring.symm⟩

theorem infix_cString_iff_unhidden {text : Bytes} (h : headerEnd <:+: text) :
    headerEnd <:+: cString text ↔ Unhidden text := by
  rw [infix_cString_iff]
  obtain ⟨n,hn⟩ := Option.isSome_iff_exists.mp ((find_isSome_iff headerEnd text).mpr h)
  constructor
  · rintro ⟨m,hm,hfree⟩ k hk
    have hmk : m = k := Option.some.inj (hm.symm.trans hk)
    exact hmk ▸ hfree
  · intro hall
    exact ⟨n,hn,hall n hn⟩

theorem unhidden_of_incomplete {text : Bytes} (h : ¬ headerEnd <:+: text) : Unhidden text := by
  intro n hn
  exact (h ((find_isSome_iff headerEnd text).mp (by simp [hn]))).elim

section
variable {size : ℕ} {stream : Bytes} {t : Session} {tr : Trace}

/-- The law holds of every delivery of a stream exactly where no NUL stands in
front of the first header end of the window. -/
theorem recognised_iff_unhidden (hsize : 0 < size)
    (h : Delivery size stream (.fresh size) tr t) :
    Recognised size stream tr ↔ Unhidden (window size stream) := by
  obtain ⟨hrequests,hclosings,-⟩ := h.outcome_eq (open_fresh hsize)
  rw [List.nil_append] at hrequests
  have hcalled : requests tr ≠ [] ↔ headerEnd <:+: cString (window size stream) := by
    rw [hrequests,outcome,visible]
    split_ifs with hv <;> simp [window,hv]
  by_cases hend : headerEnd <:+: window size stream
  · rw [Recognised,hcalled,infix_cString_iff_unhidden hend]
    simp [hend]
  · have hnone : ¬ headerEnd <:+: cString (window size stream) :=
      fun hc => hend (hc.trans (List.takeWhile_prefix _).isInfix)
    have hempty : requests tr = [] := by
      by_contra hne
      exact hnone (hcalled.mp hne)
    simp [Recognised,hempty,hclosings,hend,unhidden_of_incomplete hend]

/-- The greeting, in one read. -/
theorem recognised_iff_unhidden_greeting : ∃ tr t,
    Delivery bufferSize greeting (.fresh bufferSize) tr t ∧ Recognised bufferSize greeting tr := by
  have h : Delivery bufferSize (greeting++[]) (.fresh bufferSize) _ _ :=
    .fragment rfl (by decide) (by decide) (.closed (by decide +kernel))
  refine ⟨_,_,h,(recognised_iff_unhidden (by decide) h).mpr ?_⟩
  intro n hn
  have hfind : find headerEnd (window bufferSize greeting) = some 5 := by decide
  rw [Option.some.inj (hn.symm.trans hfind)]
  decide

/-- A NUL, and a blank line behind it. -/
theorem not_everyHeaderRecognised : ¬ ∀ stream tr t,
    Delivery bufferSize stream (.fresh bufferSize) tr t → Recognised bufferSize stream tr := by
  intro hall
  have hopen : Open bufferSize [] (.fresh bufferSize) := open_fresh (by decide)
  obtain ⟨tr,t,h⟩ := exists_delivery (by decide) (0::headerEnd) hopen (by decide)
  obtain ⟨hrequests,-,-⟩ := h.outcome_eq hopen
  have hempty : requests tr = [] := by
    rw [hrequests]
    decide
  exact (hall _ _ _ h).1.mpr (by decide) hempty

end

end WebServer.RequestRecognition
