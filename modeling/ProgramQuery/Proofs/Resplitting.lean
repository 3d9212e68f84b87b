import ProgramQuery.Proofs.Respacing
import ProgramQuery.Session.QueryFile
import Mathlib.Data.List.DropRight
import Mathlib.Logic.Relation

/-!
# Query files that are written out again

A query is one line that neither starts nor ends with a blank and does not start with a hash sign.
So the queries of a file can be written out one to a line, with blank lines between them, and are
found again. Comments decide nothing: what is put together are the lines that are left without them.

## Main definitions

- `IsQueryLine`: a line that is a query as it stands.
- `IsWritten`: queries that stand one to a line, with blank lines between them.
- `CommentInserted`: one comment line more, at any place where a line can stand.
- `CommentsEdited`: comment lines are inserted and deleted.
- `queryLines`: the lines that decide about the queries of a text.

## Main statements

- `isQueryLine_of_mem_splitQueries`: every query of a file is a line that is a query as it stands.
- `splitQueries_of_isWritten`: such lines are found again, however they are written out.
- `splitQueries_of_commentsEdited`: comments do not change the queries of a file.
- `splitQueries_is_stable`: all of this, for the queries of any file.
-/

namespace ProgramQuery

/-! ## Definitions -/

/-- The line is a query as it stands: there is nothing to trim, and it is no comment. -/
structure IsQueryLine (line : List Char) : Prop where
  first : ∃ c ∈ line.head?, isBlank c = false ∧ c ≠ '#'
  last : ∃ c ∈ line.getLast?, isBlank c = false
  unbroken : '\n' ∉ line

/-- The text has the queries one to a line, in order, and blank lines between them. Two line feeds
among blanks are the two ends of a blank line. Any blanks may stand around the queries. -/
inductive IsWritten : List String → List Char → Prop
  | nil : IsWritten [] []
  | blank {c : Char} {queries : List String} {cs : List Char} (hc : isBlank c = true)
      (h : IsWritten queries cs) : IsWritten queries (c :: cs)
  | last (query : String) {gap : List Char} (hgap : IsGap gap) :
      IsWritten [query] (query.toList ++ gap)
  | next (query : String) {gap : List Char} {queries : List String} {cs : List Char}
      (hgap : IsGap gap) (hlines : 2 ≤ gap.count '\n') (h : IsWritten queries cs) :
      IsWritten (query :: queries) (query.toList ++ (gap ++ cs))

/-- The line starts with a hash sign, behind any blanks. -/
def IsCommentLine (line : List Char) : Prop :=
  '\n' ∉ line ∧ ∃ gap rest, IsGap gap ∧ line = gap ++ '#' :: rest

/-- A line starts behind these characters. -/
def IsLineStart (cs : List Char) : Prop :=
  cs = [] ∨ ∃ front, cs = front ++ ['\n']

def IsLineEnd (cs : List Char) : Prop :=
  cs = ['\n'] ∨ cs = ['\r', '\n']

/-- The second text has one comment line more than the first: before another line, after the last
line feed, or after a last line that had no line feed. -/
inductive CommentInserted : List Char → List Char → Prop
  | before (front rest : List Char) {comment lineEnd : List Char} (hfront : IsLineStart front)
      (hcomment : IsCommentLine comment) (hend : IsLineEnd lineEnd) :
      CommentInserted (front ++ rest) (front ++ (comment ++ (lineEnd ++ rest)))
  | last (front : List Char) {comment : List Char} (hfront : IsLineStart front)
      (hcomment : IsCommentLine comment) : CommentInserted front (front ++ comment)
  | behind (front : List Char) {comment lineEnd : List Char} (hcomment : IsCommentLine comment)
      (hend : IsLineEnd lineEnd) : CommentInserted front (front ++ (lineEnd ++ comment))

/-- The texts come from each other by inserting and deleting comment lines. -/
def CommentsEdited : List Char → List Char → Prop :=
  Relation.EqvGen CommentInserted

/-- The lines that decide about the queries of a text: trimmed, and without the comments. -/
def queryLines (cs : List Char) : List (List Char) :=
  ((linesOf cs).map trimBlanks).filter fun line => !isComment line

/-! ## Trimmed lines -/

theorem trimBlanks_gap_append {gap : List Char} (h : IsGap gap) (cs : List Char) :
    trimBlanks (gap ++ cs) = trimBlanks cs := by
  rw [trimBlanks, List.dropWhile_append_of_pos h, trimBlanks]

theorem trimBlanks_eq_nil {gap : List Char} (h : IsGap gap) : trimBlanks gap = [] := by
  have htrim := trimBlanks_gap_append h []
  rwa [List.append_nil] at htrim

theorem trimBlanks_append_gap (cs : List Char) {gap : List Char} (h : IsGap gap) :
    trimBlanks (cs ++ gap) = trimBlanks cs := by
  by_cases hcs : IsGap cs
  · rw [trimBlanks_gap_append hcs, trimBlanks_eq_nil h, trimBlanks_eq_nil hcs]
  · have hkept : ¬(cs.dropWhile isBlank).isEmpty = true := by
      rwa [List.isEmpty_iff, List.dropWhile_eq_nil_iff]
    have hback : ∀ c ∈ gap.reverse, isBlank c = true := fun c hc => h c (List.mem_reverse.mp hc)
    rw [trimBlanks, List.dropWhile_append, if_neg hkept, List.reverse_append,
      List.dropWhile_append_of_pos hback, trimBlanks]

theorem trimBlanks_isPrefix (cs : List Char) : trimBlanks cs <+: cs.dropWhile isBlank :=
  List.rdropWhile_prefix isBlank (cs.dropWhile isBlank)

theorem head?_trimBlanks {cs : List Char} (h : trimBlanks cs ≠ []) :
    (trimBlanks cs).head? = (cs.dropWhile isBlank).head? := by
  obtain ⟨stop, hstop⟩ := trimBlanks_isPrefix cs
  rw [← hstop, List.head?_append_of_ne_nil _ h]

theorem dropWhile_isBlank_eq_self {cs : List Char} {c : Char} (hc : c ∈ cs.head?)
    (hblank : isBlank c = false) : cs.dropWhile isBlank = cs := by
  obtain ⟨rest, rfl⟩ := List.head?_eq_some_iff.mp hc
  exact List.dropWhile_cons_of_neg (by simp [hblank])

theorem isBlank_of_head?_dropWhile {cs : List Char} {c : Char}
    (h : c ∈ (cs.dropWhile isBlank).head?) : isBlank c = false := by
  have hfirst := List.head?_dropWhile_not isBlank cs
  rwa [Option.mem_def.mp h] at hfirst

theorem isBlank_of_getLast?_trimBlanks {cs : List Char} {c : Char}
    (h : c ∈ (trimBlanks cs).getLast?) : isBlank c = false := by
  rw [trimBlanks, List.getLast?_reverse] at h
  exact isBlank_of_head?_dropWhile h

/-- What is left of a line is a query, unless it is empty or a comment. -/
theorem isQueryLine_trimBlanks {line : List Char} (hline : '\n' ∉ line)
    (hne : trimBlanks line ≠ []) (hcomment : isComment (trimBlanks line) = false) :
    IsQueryLine (trimBlanks line) := by
  refine ⟨?_, ?_, ?_⟩
  · obtain ⟨c, hc⟩ := Option.ne_none_iff_exists'.mp (mt List.head?_eq_none_iff.mp hne)
    have hblank := isBlank_of_head?_dropWhile ((head?_trimBlanks hne).symm.trans hc)
    refine ⟨c, hc, hblank, ?_⟩
    rintro rfl
    exact of_decide_eq_false hcomment hc
  · obtain ⟨c, hc⟩ := Option.ne_none_iff_exists'.mp (mt List.getLast?_eq_none_iff.mp hne)
    exact ⟨c, hc, isBlank_of_getLast?_trimBlanks hc⟩
  · intro hmem
    have hkept : '\n' ∈ line.dropWhile isBlank := (trimBlanks_isPrefix line).mem hmem
    exact hline ((List.dropWhile_sublist _).mem hkept)

namespace IsQueryLine

variable {line next : List Char}

theorem ne_nil (h : IsQueryLine line) : line ≠ [] := by
  rintro rfl
  obtain ⟨c, hc, -⟩ := h.first
  cases hc

theorem isComment_eq_false (h : IsQueryLine line) : isComment line = false := by
  obtain ⟨c, hc, -, hne⟩ := h.first
  rw [isComment, Option.mem_def.mp hc]
  simpa using hne

theorem trimBlanks_eq_self (h : IsQueryLine line) : trimBlanks line = line := by
  obtain ⟨c, hc, hfirst, -⟩ := h.first
  obtain ⟨d, hd, hlast⟩ := h.last
  have hback : line.reverse.dropWhile isBlank = line.reverse :=
    dropWhile_isBlank_eq_self (List.head?_reverse.trans hd) hlast
  rw [trimBlanks, dropWhile_isBlank_eq_self hc hfirst, hback, List.reverse_reverse]

theorem append_blank (h : IsQueryLine line) (hnext : IsQueryLine next) :
    IsQueryLine (line ++ ' ' :: next) := by
  refine ⟨?_, ?_, ?_⟩
  · rw [List.head?_append_of_ne_nil _ h.ne_nil]
    exact h.first
  · rw [List.getLast?_append_of_ne_nil _ (List.cons_ne_nil _ _)]
    obtain ⟨c, hc, hblank⟩ := hnext.last
    exact ⟨c, List.mem_getLast?_cons hc, hblank⟩
  · intro hmem
    rcases List.mem_append.mp hmem with hmem | hmem
    · exact h.unbroken hmem
    · exact hnext.unbroken ((List.mem_cons.mp hmem).resolve_left (by decide))

end IsQueryLine

/-- Lines that are queries are also one when blanks join them. -/
theorem isQueryLine_intercalate {lines : List (List Char)} (hne : lines ≠ [])
    (h : ∀ line ∈ lines, IsQueryLine line) : IsQueryLine ([' '].intercalate lines) := by
  induction lines with
  | nil => exact absurd rfl hne
  | cons line lines ih =>
    obtain ⟨hline, hlines⟩ := List.forall_mem_cons.mp h
    cases lines with
    | nil => simpa using hline
    | cons next lines =>
      rw [List.intercalate_cons_cons, List.append_assoc]
      exact hline.append_blank (ih (List.cons_ne_nil _ _) hlines)

/-! ## Lines -/

theorem linesOf_eq_splitOnP (cs : List Char) : linesOf cs = cs.splitOnP (· == '\n') := by
  induction cs with
  | nil => rfl
  | cons c cs ih =>
    rw [linesOf, List.splitOnP_cons_eq_if_modifyHead, ih]
    simp only [beq_iff_eq]
    split
    · rfl
    · cases hlines : cs.splitOnP (· == '\n') with
      | nil => exact absurd hlines (List.splitOnP_ne_nil _ _)
      | cons line lines => rfl

theorem linesOf_ne_nil (cs : List Char) : linesOf cs ≠ [] := by
  rw [linesOf_eq_splitOnP]
  exact List.splitOnP_ne_nil _ _

theorem linesOf_append_lineFeed (cs rest : List Char) :
    linesOf (cs ++ '\n' :: rest) = linesOf cs ++ linesOf rest := by
  simp only [linesOf_eq_splitOnP]
  exact List.splitOnP_append_cons _ _ (by decide)

theorem linesOf_eq_singleton {line : List Char} (h : '\n' ∉ line) : linesOf line = [line] := by
  rw [linesOf_eq_splitOnP]
  exact List.splitOn_eq_singleton h

theorem lineFeed_notMem_of_mem_linesOf {cs line : List Char} (h : line ∈ linesOf cs) :
    '\n' ∉ line := by
  induction cs generalizing line with
  | nil =>
    rw [List.mem_singleton.mp h]
    exact List.not_mem_nil
  | cons c cs ih =>
    rw [linesOf] at h
    by_cases hc : c = '\n'
    · rw [if_pos hc] at h
      rcases List.mem_cons.mp h with rfl | hmem
      · exact List.not_mem_nil
      · exact ih hmem
    · rw [if_neg hc] at h
      obtain ⟨first, lines, hlines⟩ := List.exists_cons_of_ne_nil (linesOf_ne_nil cs)
      rw [hlines] at h ih
      rcases List.mem_cons.mp h with rfl | hmem
      · exact List.not_mem_cons_of_ne_of_not_mem (Ne.symm hc) (ih List.mem_cons_self)
      · exact ih (List.mem_cons_of_mem _ hmem)

/-- Without a line feed, more characters go on with the last line of a text. -/
theorem exists_linesOf_append (cs : List Char) {more : List Char} (h : '\n' ∉ more) :
    ∃ front last, linesOf cs = front ++ [last] ∧
      linesOf (cs ++ more) = front ++ [last ++ more] := by
  induction cs with
  | nil => exact ⟨[], [], rfl, linesOf_eq_singleton h⟩
  | cons c cs ih =>
    obtain ⟨front, last, hlines, hmore⟩ := ih
    rw [List.cons_append, linesOf, linesOf, hlines, hmore]
    by_cases hc : c = '\n'
    · rw [if_pos hc, if_pos hc]
      exact ⟨[] :: front, last, rfl, rfl⟩
    · rw [if_neg hc, if_neg hc]
      cases front with
      | nil => exact ⟨[], c :: last, rfl, rfl⟩
      | cons first front => exact ⟨(c :: first) :: front, last, rfl, rfl⟩

/-! ## Lines that decide -/

section QueryLines

variable {gap line : List Char}

theorem queryLines_append_lineFeed (cs rest : List Char) :
    queryLines (cs ++ '\n' :: rest) = queryLines cs ++ queryLines rest := by
  rw [queryLines, linesOf_append_lineFeed, List.map_append, List.filter_append]
  rfl

theorem queryLines_append_gap (cs : List Char) (hgap : IsGap gap) (hline : '\n' ∉ gap) :
    queryLines (cs ++ gap) = queryLines cs := by
  obtain ⟨front, last, hlines, hmore⟩ := exists_linesOf_append cs hline
  rw [queryLines, queryLines, hlines, hmore, List.map_append, List.map_append,
    List.map_singleton, List.map_singleton, trimBlanks_append_gap last hgap]

theorem queryLines_append_lineEnd {lineEnd : List Char} (h : IsLineEnd lineEnd)
    (cs rest : List Char) : queryLines (cs ++ (lineEnd ++ rest)) =
      queryLines cs ++ queryLines rest := by
  rcases h with rfl | rfl
  · exact queryLines_append_lineFeed cs rest
  · have hreturn : queryLines (cs ++ ['\r']) = queryLines cs :=
      queryLines_append_gap cs (List.forall_mem_singleton.mpr (by decide)) (by decide)
    rw [← hreturn, ← queryLines_append_lineFeed, List.append_assoc]
    rfl

theorem exists_queryLines_of_isLineStart {front : List Char} (h : IsLineStart front) :
    ∃ lines, ∀ rest, queryLines (front ++ rest) = lines ++ queryLines rest := by
  rcases h with rfl | ⟨front, rfl⟩
  · exact ⟨[], fun rest => rfl⟩
  · refine ⟨queryLines front, fun rest => ?_⟩
    rw [List.append_assoc]
    exact queryLines_append_lineFeed front rest

theorem queryLines_of_isCommentLine (h : IsCommentLine line) : queryLines line = [] := by
  obtain ⟨hline, gap, rest, hgap, rfl⟩ := h
  have hhash : isBlank '#' = false := by decide
  have hfirst : (trimBlanks ('#' :: rest)).head? = some '#' := by
    rw [head?_trimBlanks (trimBlanks_ne_nil List.mem_cons_self hhash),
      dropWhile_isBlank_eq_self rfl hhash, List.head?_cons]
  have hcomment : isComment (trimBlanks (gap ++ '#' :: rest)) = true := by
    rw [trimBlanks_gap_append hgap]
    exact decide_eq_true hfirst
  rw [queryLines, linesOf_eq_singleton hline, List.map_singleton,
    List.filter_cons_of_neg (by simp [hcomment]), List.filter_nil]

theorem queryLines_of_isQueryLine (h : IsQueryLine line) : queryLines line = [line] := by
  rw [queryLines, linesOf_eq_singleton h.unbroken, List.map_singleton, h.trimBlanks_eq_self,
    List.filter_cons_of_pos (by simp [h.isComment_eq_false]), List.filter_nil]

theorem eq_nil_or_isQueryLine {cs : List Char} (h : line ∈ queryLines cs) :
    line = [] ∨ IsQueryLine line := by
  obtain ⟨hmem, hcomment⟩ := List.mem_filter.mp h
  obtain ⟨line, hline, rfl⟩ := List.mem_map.mp hmem
  by_cases hne : trimBlanks line = []
  · exact .inl hne
  · exact .inr (isQueryLine_trimBlanks (lineFeed_notMem_of_mem_linesOf hline) hne
      (by simpa using hcomment))

/-- A blank at the start of a text is the end of an empty line, or it makes no difference. -/
theorem queryLines_blank {c : Char} (hc : isBlank c = true) (cs : List Char) :
    queryLines (c :: cs) = queryLines cs ∨ queryLines (c :: cs) = [] :: queryLines cs := by
  by_cases hfeed : c = '\n'
  · rw [hfeed]
    exact .inr (queryLines_append_lineFeed [] cs)
  · refine .inl ?_
    obtain ⟨line, lines, hlines⟩ := List.exists_cons_of_ne_nil (linesOf_ne_nil cs)
    have htrim : trimBlanks (c :: line) = trimBlanks line :=
      trimBlanks_gap_append (List.forall_mem_singleton.mpr hc) line
    rw [queryLines, queryLines, linesOf, if_neg hfeed, hlines, List.map_cons, List.map_cons, htrim]

theorem eq_nil_of_mem_queryLines (hgap : IsGap gap) : ∀ line ∈ queryLines gap, line = [] := by
  induction gap with
  | nil => exact List.forall_mem_singleton.mpr rfl
  | cons c gap ih =>
    obtain ⟨hc, hgap⟩ := List.forall_mem_cons.mp hgap
    rcases queryLines_blank hc gap with h | h
    · rw [h]
      exact ih hgap
    · rw [h]
      exact List.forall_mem_cons.mpr ⟨rfl, ih hgap⟩

/-- The first line feed among blanks ends the line before them. -/
theorem exists_queryLines_append (hgap : IsGap gap) (hfeed : '\n' ∈ gap) :
    ∃ rest, IsGap rest ∧ gap.count '\n' = rest.count '\n' + 1 ∧
      ∀ cs more, queryLines (cs ++ (gap ++ more)) = queryLines cs ++ queryLines (rest ++ more) := by
  obtain ⟨front, rest, rfl, hfront⟩ := List.eq_append_cons_of_mem hfeed
  obtain ⟨hblanks, hrest⟩ := List.forall_mem_append.mp hgap
  refine ⟨rest, (List.forall_mem_cons.mp hrest).2, ?_, fun cs more => ?_⟩
  · rw [List.count_append, List.count_eq_zero_of_not_mem hfront, List.count_cons_self,
      Nat.zero_add]
  · rw [List.append_assoc, List.cons_append, ← List.append_assoc, queryLines_append_lineFeed,
      queryLines_append_gap cs hblanks hfront]

end QueryLines

/-! ## Queries -/

section Paragraphs

variable {lines empty : List (List Char)}

/-- No run is empty, and what holds of the lines that are not empty holds of all lines of a run. -/
theorem forall_mem_paragraphs {P : List Char → Prop} (hlines : ∀ line ∈ lines, line = [] ∨ P line)
    {current : List (List Char)} (hcurrent : ∀ line ∈ current, P line) :
    ∀ paragraph ∈ paragraphs current lines, paragraph ≠ [] ∧ ∀ line ∈ paragraph, P line := by
  induction lines generalizing current with
  | nil =>
    rw [paragraphs]
    split
    · exact List.forall_mem_nil _
    · next hne => exact List.forall_mem_singleton.mpr ⟨hne, hcurrent⟩
  | cons line lines ih =>
    obtain ⟨hline, hrest⟩ := List.forall_mem_cons.mp hlines
    have hafter := ih hrest (List.forall_mem_nil P)
    rw [paragraphs]
    split
    · split
      · exact hafter
      · next hne => exact List.forall_mem_cons.mpr ⟨⟨hne, hcurrent⟩, hafter⟩
    · next hne =>
      exact ih hrest (List.forall_mem_append.mpr
        ⟨hcurrent, List.forall_mem_singleton.mpr (hline.resolve_left hne)⟩)

theorem paragraphs_cons_nil {current : List (List Char)} (h : current ≠ [])
    (lines : List (List Char)) :
    paragraphs current ([] :: lines) = current :: paragraphs [] lines := by
  rw [paragraphs, if_pos rfl, if_neg h]

theorem paragraphs_empty (hempty : ∀ line ∈ empty, line = []) (current : List (List Char)) :
    paragraphs current empty = paragraphs current [] := by
  induction empty generalizing current with
  | nil => rfl
  | cons line empty ih =>
    obtain ⟨rfl, hrest⟩ := List.forall_mem_cons.mp hempty
    by_cases hcurrent : current = []
    · rw [hcurrent]
      exact ih hrest []
    · rw [paragraphs_cons_nil hcurrent, ih hrest [], paragraphs.eq_1 current, if_neg hcurrent]
      rfl

/-- Empty lines at the end of a file only end a run that ends there anyway. -/
theorem paragraphs_append_empty (hempty : ∀ line ∈ empty, line = [])
    (current lines : List (List Char)) :
    paragraphs current (lines ++ empty) = paragraphs current lines := by
  induction lines generalizing current with
  | nil => exact paragraphs_empty hempty current
  | cons line lines ih => rw [List.cons_append, paragraphs, paragraphs, ih, ih]

theorem paragraphs_blank {c : Char} (hc : isBlank c = true) (cs : List Char) :
    paragraphs [] (queryLines (c :: cs)) = paragraphs [] (queryLines cs) := by
  rcases queryLines_blank hc cs with h | h
  · rw [h]
  · rw [h]
    rfl

theorem paragraphs_gap {gap : List Char} (hgap : IsGap gap) (cs : List Char) :
    paragraphs [] (queryLines (gap ++ cs)) = paragraphs [] (queryLines cs) := by
  induction gap with
  | nil => rfl
  | cons c gap ih =>
    obtain ⟨hc, hgap⟩ := List.forall_mem_cons.mp hgap
    rw [List.cons_append, paragraphs_blank hc, ih hgap]

theorem paragraphs_append_gap (cs : List Char) {gap : List Char} (hgap : IsGap gap) :
    paragraphs [] (queryLines (cs ++ gap)) = paragraphs [] (queryLines cs) := by
  by_cases hfeed : '\n' ∈ gap
  · obtain ⟨rest, hrest, -, hlines⟩ := exists_queryLines_append hgap hfeed
    have hmore := hlines cs []
    rw [List.append_nil, List.append_nil] at hmore
    rw [hmore, paragraphs_append_empty (eq_nil_of_mem_queryLines hrest)]
  · rw [queryLines_append_gap cs hgap hfeed]

end Paragraphs

theorem splitQueries_eq_map (text : String) :
    splitQueries text = (paragraphs [] (queryLines text.toList)).map
      fun paragraph => String.ofList ([' '].intercalate paragraph) :=
  rfl

theorem isQueryLine_of_mem_splitQueries {text query : String} (h : query ∈ splitQueries text) :
    IsQueryLine query.toList := by
  rw [splitQueries_eq_map] at h
  obtain ⟨paragraph, hmem, rfl⟩ := List.mem_map.mp h
  obtain ⟨hne, hlines⟩ := forall_mem_paragraphs (fun line hline => eq_nil_or_isQueryLine hline)
    (List.forall_mem_nil IsQueryLine) paragraph hmem
  rw [String.toList_ofList]
  exact isQueryLine_intercalate hne hlines

/-! ## Comments -/

theorem paragraphs_of_commentInserted {cs cs' : List Char} (h : CommentInserted cs cs') :
    paragraphs [] (queryLines cs') = paragraphs [] (queryLines cs) := by
  cases h with
  | before front rest hfront hcomment hend =>
    obtain ⟨lines, hlines⟩ := exists_queryLines_of_isLineStart hfront
    rw [hlines, hlines, queryLines_append_lineEnd hend, queryLines_of_isCommentLine hcomment,
      List.nil_append]
  | last front hfront hcomment =>
    -- The comment stands where the last line, which is empty, has been.
    obtain ⟨lines, hlines⟩ := exists_queryLines_of_isLineStart hfront
    have hbare := hlines []
    rw [List.append_nil] at hbare
    rw [hlines, hbare, queryLines_of_isCommentLine hcomment, List.append_nil]
    exact (paragraphs_append_empty (eq_nil_of_mem_queryLines (List.forall_mem_nil _)) [] lines).symm
  | behind front hcomment hend =>
    rw [queryLines_append_lineEnd hend, queryLines_of_isCommentLine hcomment, List.append_nil]

theorem paragraphs_of_commentsEdited {cs cs' : List Char} (h : CommentsEdited cs cs') :
    paragraphs [] (queryLines cs') = paragraphs [] (queryLines cs) := by
  induction h with
  | rel cs cs' h => exact paragraphs_of_commentInserted h
  | refl cs => rfl
  | symm cs cs' _ ih => exact ih.symm
  | trans cs cs' cs'' _ _ ih ih' => exact ih'.trans ih

theorem splitQueries_of_commentsEdited {text text' : String}
    (h : CommentsEdited text.toList text'.toList) : splitQueries text' = splitQueries text := by
  rw [splitQueries_eq_map, splitQueries_eq_map, paragraphs_of_commentsEdited h]

/-! ## Written queries -/

theorem paragraphs_of_isWritten {queries : List String} {cs : List Char}
    (h : IsWritten queries cs) (hqueries : ∀ query ∈ queries, IsQueryLine query.toList) :
    paragraphs [] (queryLines cs) = queries.map fun query => [query.toList] := by
  induction h with
  | nil => rfl
  | blank hc _ ih => rw [paragraphs_blank hc, ih hqueries]
  | last query hgap =>
    have hquery := List.forall_mem_singleton.mp hqueries
    rw [paragraphs_append_gap _ hgap, queryLines_of_isQueryLine hquery, paragraphs,
      if_neg hquery.ne_nil]
    rfl
  | @next query gap queries cs hgap hlines _ ih =>
    obtain ⟨hquery, hqueries⟩ := List.forall_mem_cons.mp hqueries
    -- The first line feed ends the line of the query, the second one the blank line behind it.
    obtain ⟨rest, hrest, hcount, hfirst⟩ :=
      exists_queryLines_append hgap (List.count_pos_iff.mp (by omega))
    obtain ⟨rest', hrest', -, hsecond⟩ :=
      exists_queryLines_append hrest (List.count_pos_iff.mp (by omega))
    have hblank : queryLines (rest ++ cs) = [] :: queryLines (rest' ++ cs) := hsecond [] cs
    rw [hfirst, queryLines_of_isQueryLine hquery, hblank, List.singleton_append, paragraphs,
      if_neg hquery.ne_nil, List.nil_append, paragraphs_cons_nil (List.cons_ne_nil _ _),
      paragraphs_gap hrest', ih hqueries, List.map_cons]

theorem splitQueries_of_isWritten {queries : List String} {text : String}
    (h : IsWritten queries text.toList) (hqueries : ∀ query ∈ queries, IsQueryLine query.toList) :
    splitQueries text = queries := by
  rw [splitQueries_eq_map, paragraphs_of_isWritten h hqueries, List.map_map]
  refine (List.map_congr_left fun query _ => ?_).trans (List.map_id queries)
  simp

theorem isWritten_intercalate (queries : List String) :
    IsWritten queries (['\n', '\n'].intercalate (queries.map String.toList)) := by
  induction queries with
  | nil => exact .nil
  | cons query queries ih =>
    cases queries with
    | nil =>
      have hlast := IsWritten.last query (List.forall_mem_nil fun c => isBlank c = true)
      simpa using hlast
    | cons next queries =>
      rw [List.map_cons, List.map_cons, List.intercalate_cons_cons, List.append_assoc]
      exact .next query (List.all_eq_true.mp (by decide)) (by decide) ih

/-- The queries of a file are stable. Written out again, one to a line, with blank lines between
them and comments anywhere, they are the same queries. Comments that are inserted into the file or
deleted from it do not change them. And every list of lines that are queries as they stand is the
list of the queries of some file. -/
theorem splitQueries_is_stable :
    (∀ text written file : String, IsWritten (splitQueries text) written.toList →
      CommentsEdited written.toList file.toList → splitQueries file = splitQueries text) ∧
    (∀ text text' : String, CommentsEdited text.toList text'.toList →
      splitQueries text' = splitQueries text) ∧
    ∀ queries : List String, (∃ text, splitQueries text = queries) ↔
      ∀ query ∈ queries, IsQueryLine query.toList := by
  refine ⟨fun text written file hwritten hedited => ?_,
    fun text text' hedited => splitQueries_of_commentsEdited hedited, fun queries => ⟨?_, ?_⟩⟩
  · rw [splitQueries_of_commentsEdited hedited]
    exact splitQueries_of_isWritten hwritten fun query => isQueryLine_of_mem_splitQueries
  · rintro ⟨text, rfl⟩ query hquery
    exact isQueryLine_of_mem_splitQueries hquery
  · intro hqueries
    have hwritten := isWritten_intercalate queries
    rw [← String.toList_ofList (l := ['\n', '\n'].intercalate (queries.map String.toList))]
      at hwritten
    exact ⟨_, splitQueries_of_isWritten hwritten hqueries⟩

/-- Two queries, the first one on two lines with a comment among them. They are written out again
with other line ends, a blank line that holds a tabulator, and comments before, between and behind
them. Then the comments of the file they come from are deleted. -/
theorem splitQueries_is_stable_two_queries :
    splitQueries "#one\nif i;\r\n\t#two\nSelect i\n\nSelect v" =
      ["if i; Select i", "Select v"] ∧
    IsWritten ["if i; Select i", "Select v"] "if i; Select i\r\n\t\r\nSelect v\n".toList ∧
    CommentsEdited "if i; Select i\r\n\t\r\nSelect v\n".toList
      "#top\nif i; Select i\r\n #mid\r\n\t\r\nSelect v\n#end".toList ∧
    splitQueries "#top\nif i; Select i\r\n #mid\r\n\t\r\nSelect v\n#end" =
      ["if i; Select i", "Select v"] ∧
    CommentsEdited "#one\nif i;\r\n\t#two\nSelect i\n\nSelect v".toList
      "if i;\r\nSelect i\n\nSelect v".toList ∧
    splitQueries "if i;\r\nSelect i\n\nSelect v" = ["if i; Select i", "Select v"] := by
  have hsplit : splitQueries "#one\nif i;\r\n\t#two\nSelect i\n\nSelect v" =
      ["if i; Select i", "Select v"] := by
    decide +kernel
  have hwritten : IsWritten ["if i; Select i", "Select v"]
      "if i; Select i\r\n\t\r\nSelect v\n".toList :=
    .next "if i; Select i" (List.all_eq_true.mp (by decide : "\r\n\t\r\n".toList.all isBlank))
      (by decide) (.last "Select v" (List.all_eq_true.mp (by decide : "\n".toList.all isBlank)))
  have hhash (rest : List Char) (h : '\n' ∉ '#' :: rest) : IsCommentLine ('#' :: rest) :=
    ⟨h, [], rest, List.forall_mem_nil _, rfl⟩
  have hmid : IsCommentLine " #mid".toList :=
    ⟨by decide, [' '], _, List.forall_mem_singleton.mpr (by decide), rfl⟩
  have htwo : IsCommentLine "\t#two".toList :=
    ⟨by decide, ['\t'], _, List.forall_mem_singleton.mpr (by decide), rfl⟩
  have hedited : CommentsEdited "if i; Select i\r\n\t\r\nSelect v\n".toList
      "#top\nif i; Select i\r\n #mid\r\n\t\r\nSelect v\n#end".toList := by
    refine .trans _ _ _ (.rel _ _ (.before [] _ (.inl rfl) (hhash "top".toList (by decide))
      (.inl rfl))) ?_
    refine .trans _ _ _ (.rel _ _ (.before ("#top\nif i; Select i\r".toList ++ ['\n'])
      "\t\r\nSelect v\n".toList (.inr ⟨_, rfl⟩) hmid (.inr rfl))) ?_
    exact .rel _ _ (.last ("#top\nif i; Select i\r\n #mid\r\n\t\r\nSelect v".toList ++ ['\n'])
      (.inr ⟨_, rfl⟩) (hhash "end".toList (by decide)))
  have hdeleted : CommentsEdited "#one\nif i;\r\n\t#two\nSelect i\n\nSelect v".toList
      "if i;\r\nSelect i\n\nSelect v".toList := by
    refine .symm _ _ (.trans _ _ _ (.rel _ _ (.before ("if i;\r".toList ++ ['\n'])
      "Select i\n\nSelect v".toList (.inr ⟨_, rfl⟩) htwo (.inl rfl))) ?_)
    exact .rel _ _ (.before [] _ (.inl rfl) (hhash "one".toList (by decide)) (.inl rfl))
  refine ⟨hsplit, hwritten, hedited, ?_, hdeleted, ?_⟩
  · rw [splitQueries_is_stable.1 _ _ _ (hsplit ▸ hwritten) hedited, hsplit]
  · rw [splitQueries_is_stable.2.1 _ _ hdeleted, hsplit]

end ProgramQuery
