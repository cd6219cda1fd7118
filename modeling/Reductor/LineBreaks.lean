-- The lines of a file and what ends them: `BufferedReader.readLine` takes a
-- line feed, a carriage return or the two of them for the end of a line, and
-- a file may mix them.
import Reductor.Dimacs

open reductor.java

namespace reductor.dimacs

/-! ## Lines with their ends -/

inductive LineEnd
  | lf | cr | crlf | eof
  deriving DecidableEq, Repr

def LineEnd.chars : LineEnd → Text
  | .lf => ['\n']
  | .cr => ['\r']
  | .crlf => ['\r', '\n']
  | .eof => []

/-- A line with its end. -/
abbrev Ended := Line × LineEnd

/-- The text of a file whose lines end so. -/
def rendered (lines : List Ended) : Text := lines.flatMap fun p => p.1.chars ++ p.2.chars

/-- Only the last line may have no end, and then it is not empty; a carriage
return is not followed by the line feed of an empty line. -/
def WellEnded : List Ended → Prop
  | [] => True
  | p :: lines => (p.2 = .eof → p.1.chars ≠ [] ∧ lines = []) ∧
      (p.2 = .cr → lines.head? ≠ some (.nil, .lf)) ∧ WellEnded lines

/-- The lines of a text, each with its end. -/
def breaks : Text → List Ended
  | [] => []
  | '\r' :: '\n' :: s => (.nil, .crlf) :: breaks s
  | c :: s =>
    if h : c ≠ '\n' ∧ c ≠ '\r' then
      match breaks s with
      | [] => [(Line.nil.cons c h, .eof)]
      | p :: lines => (p.1.cons c h, p.2) :: lines
    else (.nil, if c = '\n' then .lf else .cr) :: breaks s

theorem read_eq_breaks (s : Text) : read s = (breaks s).map Prod.fst := by
  fun_induction breaks s with
  | case1 => rfl
  | case2 s ih => rw [read, ih, List.map_cons]
  | case3 c s hno h hb ih =>
    rw [read, dif_pos h, ih, hb]
    · rfl
    · exact hno
  | case4 c s hno h p lines hb ih =>
    rw [read, dif_pos h, ih, hb]
    · rfl
    · exact hno
  | case5 c s hno h ih =>
    rw [read, dif_neg h, ih, List.map_cons]
    exact hno

theorem rendered_breaks (s : Text) : rendered (breaks s) = s := by
  fun_induction breaks s with
  | case1 => rfl
  | case2 s ih =>
    rw [rendered, List.flatMap_cons]
    exact congrArg (['\r', '\n'] ++ ·) ih
  | case3 c s hno h hb ih =>
    rw [hb] at ih
    rw [← ih]
    rfl
  | case4 c s hno h p lines hb ih =>
    rw [hb] at ih
    rw [← ih]
    rfl
  | case5 c s hno h ih =>
    have hc : LineEnd.chars (if c = '\n' then .lf else .cr) = [c] := by
      by_cases hlf : c = '\n'
      · rw [if_pos hlf, hlf]
        rfl
      · have hcr : c = '\r' := by
          by_contra hcr
          exact h ⟨hlf, hcr⟩
        rw [if_neg hlf, hcr]
        rfl
    rw [rendered, List.flatMap_cons]
    show (LineEnd.chars _ ++ rendered (breaks s)) = _
    rw [hc, ih]
    rfl

theorem wellEnded_breaks (s : Text) : WellEnded (breaks s) := by
  fun_induction breaks s with
  | case1 => exact trivial
  | case2 s ih =>
    refine ⟨?_, ?_, ih⟩
    · intro h
      cases h
    · intro h
      cases h
  | case3 c s hno h hb ih =>
    refine ⟨fun _ => ⟨List.cons_ne_nil c _, rfl⟩, ?_, trivial⟩
    intro h
    cases h
  | case4 c s hno h p lines hb ih =>
    rw [hb] at ih
    obtain ⟨heof, hcr, hrest⟩ := ih
    exact ⟨fun he => ⟨List.cons_ne_nil c _, (heof he).2⟩, hcr, hrest⟩
  | case5 c s hno h ih =>
    refine ⟨?_, ?_, ih⟩
    · intro he
      by_cases hlf : c = '\n'
      · rw [if_pos hlf] at he
        cases he
      · rw [if_neg hlf] at he
        cases he
    · intro hc hhead
      -- The line feed would belong to the carriage return in front of it.
      have hcr : c = '\r' := by
        by_contra hcr
        have hlf : c = '\n' := by
          by_contra hlf
          exact h ⟨hlf, hcr⟩
        rw [if_pos hlf] at hc
        cases hc
      obtain ⟨rest, hrest⟩ := List.head?_eq_some_iff.mp hhead
      have hs := rendered_breaks s
      rw [hrest] at hs
      exact hno _ hcr hs.symm

/-- A line with its end, in front of a text that does not add to the end. -/
theorem breaks_line (chars : Text) (hone : ∀ c ∈ chars, c ≠ '\n' ∧ c ≠ '\r') {stop : LineEnd}
    (hstop : stop ≠ .eof) {s : Text} (hcr : stop = .cr → s.head? ≠ some '\n') :
    breaks (chars ++ stop.chars ++ s) = (⟨chars, hone⟩, stop) :: breaks s := by
  induction chars with
  | nil =>
    cases stop with
    | lf =>
      show breaks ('\n' :: s) = _
      rw [breaks]
      · rfl
      · intro _ h
        cases h
    | crlf => rfl
    | cr =>
      show breaks ('\r' :: s) = _
      rw [breaks]
      · rfl
      · rintro s' - rfl
        exact hcr rfl rfl
    | eof => exact absurd rfl hstop
  | cons c chars ih =>
    have hc := hone c List.mem_cons_self
    have hrest := ih fun d hd => hone d (List.mem_cons_of_mem c hd)
    show breaks (c :: (chars ++ stop.chars ++ s)) = _
    rw [breaks, dif_pos hc, hrest]
    · rfl
    · rintro _ rfl
      exact absurd rfl hc.2

/-- The text behind the last end of a line. -/
theorem breaks_last (chars : Text) (hone : ∀ c ∈ chars, c ≠ '\n' ∧ c ≠ '\r') (hne : chars ≠ []) :
    breaks chars = [(⟨chars, hone⟩, .eof)] := by
  induction chars with
  | nil => exact absurd rfl hne
  | cons c chars ih =>
    have hc := hone c List.mem_cons_self
    have hno : ∀ s, c = '\r' → chars = '\n' :: s → False := fun _ h _ => hc.2 h
    rw [breaks, dif_pos hc]
    · cases chars with
      | nil => rfl
      | cons d chars =>
        rw [ih (fun x hx => hone x (List.mem_cons_of_mem c hx)) (List.cons_ne_nil d chars)]
        rfl
    · exact hno

theorem head_rendered {lines : List Ended} (h : WellEnded lines)
    (hhead : lines.head? ≠ some (.nil, .lf)) : (rendered lines).head? ≠ some '\n' := by
  cases lines with
  | nil =>
    intro he
    cases he
  | cons p lines =>
    obtain ⟨⟨chars, hone⟩, stop⟩ := p
    obtain ⟨heof, -, -⟩ := h
    rw [rendered, List.flatMap_cons]
    cases chars with
    | cons c chars =>
      intro he
      cases he
      exact (hone '\n' List.mem_cons_self).1 rfl
    | nil =>
      cases stop with
      | lf => exact absurd rfl hhead
      | cr => intro he; cases he
      | crlf => intro he; cases he
      | eof => exact absurd rfl (heof rfl).1

theorem breaks_rendered {lines : List Ended} (h : WellEnded lines) :
    breaks (rendered lines) = lines := by
  induction lines with
  | nil => rfl
  | cons p lines ih =>
    obtain ⟨⟨chars, hone⟩, stop⟩ := p
    obtain ⟨heof, hcr, hrest⟩ := h
    by_cases hstop : stop = .eof
    · obtain ⟨hne, rfl⟩ := heof hstop
      have htext : rendered [(⟨chars, hone⟩, stop)] = chars := by
        rw [hstop]
        simp [rendered, LineEnd.chars]
      rw [htext, breaks_last chars hone hne, hstop]
    · rw [rendered, List.flatMap_cons]
      refine (breaks_line chars hone hstop fun hs => head_rendered hrest (hcr hs)).trans ?_
      exact congrArg _ (ih hrest)

/-- Every text is made of lines with their ends in one way, and these lines are
what is read. So lines written with any ends are read back. -/
theorem a_text_is_read_by_its_line_ends (s : Text) :
    ∃ lines, WellEnded lines ∧ rendered lines = s ∧ read s = lines.map Prod.fst ∧
      ∀ lines', WellEnded lines' → rendered lines' = s → lines' = lines := by
  refine ⟨breaks s, wellEnded_breaks s, rendered_breaks s, read_eq_breaks s, ?_⟩
  rintro lines' h rfl
  exact (breaks_rendered h).symm

end reductor.dimacs
