import ProgramQuery.Tree.Display
import ProgramQuery.Proofs.TreePosition

/-!
# A tree can be read off its text

The text of a tree on one line shows all of the tree. Every field is made of letters and digits, or
is a dash, and a sign that no field has shows where it ends. The children are between brackets. A
text goes on with them only after a blank, and where a tree ends there is a comma, a bracket or
nothing; so it is clear from the next character whether a tree has children, and after a child
whether there is another one. Hence trees with the same text are the same, whatever comes after
their texts.

## Main definitions

- `Node.IsPlain`: trees whose names and constants are letters and digits.
- `Node.IsReadable`: a tree can be told apart from all others by the beginning of a text.

## Main statements

- `Node.IsPlain.isReadable`: every plain tree is readable.
- `Node.IsProgram.isPlain`: the trees of programs are plain.
- `display_eq_iff`: trees have the same text if and only if they are the same.
-/

namespace ProgramQuery

/-! ## Kinds and lines -/

/-- The first kind with a label is the only one. -/
theorem NodeKind.find?_label (kind : NodeKind) :
    NodeKind.all.find? (fun k => k.label = kind.label) = some kind := by
  cases kind <;> rfl

theorem NodeKind.label_inj {kind kind' : NodeKind} (h : kind.label = kind'.label) :
    kind = kind' := by
  have hfind := NodeKind.find?_label kind
  rw [h, NodeKind.find?_label kind'] at hfind
  exact (Option.some.inj hfind).symm

theorem NodeKind.isAlphanum_label (kind : NodeKind) :
    ∀ c ∈ kind.label.toList, c.isAlphanum = true := by
  apply List.all_eq_true.mp
  cases kind <;> rfl

/-- Whether a character can stand in the text of a line. -/
def isLineSign (c : Char) : Bool :=
  c.isDigit || c = '-'

/-- The text of a line, if there is one, or a dash. -/
def lineText (line : Option Nat) : String :=
  (line.map toString).getD "-"

theorem isLineSign_lineText (line : Option Nat) :
    ∀ c ∈ (lineText line).toList, isLineSign c = true := by
  cases line with
  | none => exact List.all_eq_true.mp rfl
  | some n =>
    intro c hc
    rw [isLineSign, List.all_eq_true.mp (isNumber_toString n).all_isDigit c hc, Bool.true_or]

theorem toString_ne_dash (n : Nat) : toString n ≠ "-" := by
  intro heq
  have hdigits := (isNumber_toString n).all_isDigit
  rw [heq] at hdigits
  exact absurd hdigits (by decide)

theorem lineText_inj {line line' : Option Nat} (h : lineText line = lineText line') :
    line = line' := by
  cases line with
  | none =>
    cases line' with
    | none => rfl
    | some n => exact absurd h.symm (toString_ne_dash n)
  | some n =>
    cases line' with
    | none => exact absurd h (toString_ne_dash n)
    | some m =>
      have hvalue : digitsValue (toString n).toList = digitsValue (toString m).toList :=
        congrArg (fun text => digitsValue text.toList) h
      rw [digitsValue_toString, digitsValue_toString] at hvalue
      rw [hvalue]

/-! ## Texts as characters -/

namespace Node

/-- The characters for the children of a node from one on that is not the first. -/
def laterCharacters : List Node → List Char
  | [] => [']']
  | n :: ns => ',' :: ' ' :: (n.display.toList ++ laterCharacters ns)

/-- The characters for the children of a node. -/
def childCharacters : List Node → List Char
  | [] => []
  | n :: ns => ' ' :: ':' :: ' ' :: '[' :: (n.display.toList ++ laterCharacters ns)

theorem intercalate_displayAll (n : Node) (ns : List Node) :
    [',', ' '].intercalate (n.display.toList :: (displayAll ns).map String.toList) ++ [']'] =
      n.display.toList ++ laterCharacters ns := by
  induction ns generalizing n with
  | nil => simp [displayAll, laterCharacters]
  | cons m ns ih =>
    rw [displayAll, List.map_cons, List.intercalate_cons_cons, List.append_assoc,
      List.append_assoc, ih m]
    rfl

theorem toList_display (kind : NodeKind) (line : Option Nat) (name constant : String)
    (children : List Node) :
    (display ⟨kind, line, name, constant, children⟩).toList =
      kind.label.toList ++ ' ' :: '@' :: ' ' :: ((lineText line).toList ++
        '(' :: (name.toList ++ ',' :: ' ' :: (constant.toList ++
          ')' :: childCharacters children))) := by
  cases children with
  | nil => simp [display, displayAll, lineText, childCharacters]
  | cons n ns =>
    simp [display, displayAll, lineText, childCharacters, intercalate_displayAll n ns]

/-! ## Reading a tree off its text -/

/-- The names and constants of the tree are letters and digits of ASCII, if anything. -/
inductive IsPlain : Node → Prop where
  | intro {kind : NodeKind} {line : Option Nat} {name constant : String} {children : List Node}
      (hname : ∀ c ∈ name.toList, c.isAlphanum = true)
      (hconstant : ∀ c ∈ constant.toList, c.isAlphanum = true)
      (hchildren : ∀ n ∈ children, IsPlain n) : IsPlain ⟨kind, line, name, constant, children⟩

/-- The tree can be told apart from every other plain tree by the beginning of a text, and the rest
of the text is then the same. After both trees the text does not go on with a blank. -/
def IsReadable (n : Node) : Prop :=
  ∀ m rest rest', m.IsPlain → rest.head? ≠ some ' ' → rest'.head? ≠ some ' ' →
    n.display.toList ++ rest = m.display.toList ++ rest' → n = m ∧ rest = rest'

/-- After a child the text does not go on with a blank. -/
theorem head?_laterCharacters (ns : List Node) (rest : List Char) :
    (laterCharacters ns ++ rest).head? ≠ some ' ' := by
  cases ns with
  | nil => exact (by decide : some ']' ≠ some ' ')
  | cons n ns => exact (by decide : some ',' ≠ some ' ')

theorem laterCharacters_inj {ns ms : List Node} {rest rest' : List Char}
    (hns : ∀ n ∈ ns, n.IsReadable) (hms : ∀ m ∈ ms, m.IsPlain)
    (h : laterCharacters ns ++ rest = laterCharacters ms ++ rest') : ns = ms ∧ rest = rest' := by
  induction ns generalizing ms with
  | nil =>
    cases ms with
    | nil => exact ⟨rfl, (List.cons.inj h).2⟩
    | cons m ms => exact absurd (List.cons.inj h).1 (by decide)
  | cons n ns ih =>
    cases ms with
    | nil => exact absurd (List.cons.inj h).1 (by decide)
    | cons m ms =>
      have htext : n.display.toList ++ (laterCharacters ns ++ rest) =
          m.display.toList ++ (laterCharacters ms ++ rest') := by
        simpa [laterCharacters] using h
      obtain ⟨rfl, hlater⟩ := hns n List.mem_cons_self m _ _ (hms m List.mem_cons_self)
        (head?_laterCharacters ns rest) (head?_laterCharacters ms rest') htext
      obtain ⟨rfl, hrest⟩ := ih (fun n hn => hns n (List.mem_cons_of_mem _ hn))
        (fun m hm => hms m (List.mem_cons_of_mem _ hm)) hlater
      exact ⟨rfl, hrest⟩

theorem childCharacters_inj {ns ms : List Node} {rest rest' : List Char}
    (hns : ∀ n ∈ ns, n.IsReadable) (hms : ∀ m ∈ ms, m.IsPlain) (hrest : rest.head? ≠ some ' ')
    (hrest' : rest'.head? ≠ some ' ')
    (h : childCharacters ns ++ rest = childCharacters ms ++ rest') : ns = ms ∧ rest = rest' := by
  cases ns with
  | nil =>
    cases ms with
    | nil => exact ⟨rfl, h⟩
    | cons m ms =>
      have hblank : rest = ' ' :: _ := h
      exact absurd (congrArg List.head? hblank) hrest
  | cons n ns =>
    cases ms with
    | nil =>
      have hblank : rest' = ' ' :: _ := h.symm
      exact absurd (congrArg List.head? hblank) hrest'
    | cons m ms =>
      -- after the bracket the first children stand as later ones do after a comma
      have hlater : laterCharacters (n :: ns) ++ rest = laterCharacters (m :: ms) ++ rest' := by
        simpa [laterCharacters, childCharacters] using h
      exact laterCharacters_inj hns hms hlater

/-- Every plain tree can be read off its text. -/
theorem IsPlain.isReadable {n : Node} (h : n.IsPlain) : n.IsReadable := by
  induction h with
  | @intro kind line name constant children hname hconstant _ ih =>
    rintro _ rest rest' ⟨hname', hconstant', hchildren'⟩ hrest hrest' htext
    simp only [toList_display, List.append_assoc, List.cons_append] at htext
    obtain ⟨hkind, htext⟩ := append_stop_inj kind.isAlphanum_label (NodeKind.isAlphanum_label _)
      (by decide) (by decide) htext
    obtain ⟨hline, htext⟩ := append_stop_inj (isLineSign_lineText line) (isLineSign_lineText _)
      (by decide) (by decide) (List.cons.inj (List.cons.inj htext).2).2
    obtain ⟨hnames, htext⟩ := append_stop_inj hname hname' (by decide) (by decide) htext
    obtain ⟨hconstants, htext⟩ := append_stop_inj hconstant hconstant' (by decide) (by decide)
      (List.cons.inj htext).2
    obtain ⟨rfl, hrest⟩ := childCharacters_inj ih hchildren' hrest hrest' htext
    rw [NodeKind.label_inj (String.toList_inj.mp hkind), lineText_inj (String.toList_inj.mp hline),
      String.toList_inj.mp hnames, String.toList_inj.mp hconstants]
    exact ⟨rfl, hrest⟩

/-! ## Trees of programs -/

theorem IsPlain.leaf {kind : NodeKind} {line : Option Nat} {name constant : String}
    (hname : ∀ c ∈ name.toList, c.isAlphanum = true)
    (hconstant : ∀ c ∈ constant.toList, c.isAlphanum = true) :
    IsPlain ⟨kind, line, name, constant, []⟩ :=
  .intro hname hconstant nofun

/-- A node without a name and a constant is plain if its children are. -/
theorem IsPlain.bare {kind : NodeKind} {line : Option Nat} {children : List Node}
    (hchildren : ∀ n ∈ children, n.IsPlain) : IsPlain ⟨kind, line, "", "", children⟩ :=
  .intro nofun nofun hchildren

theorem isPlain_ofName {t : Token} (ht : t.IsLexical) (hname : t.kind = .name) :
    (ofName t).IsPlain :=
  .leaf (ht.isName hname).isAlphanum nofun

theorem isPlain_binary {kind : NodeKind} {line : Nat} {left right : Node} (hleft : left.IsPlain)
    (hright : right.IsPlain) : (binary kind line left right).IsPlain :=
  .bare (List.forall_mem_cons.mpr ⟨hleft, List.forall_mem_singleton.mpr hright⟩)

theorem IsExpression.isPlain {n : Node} (h : n.IsExpression Token.IsLexical) : n.IsPlain := by
  induction h with
  | name htoken hkind => exact isPlain_ofName htoken hkind
  | integer htoken hkind => exact .leaf nofun (htoken.isNumber hkind).isAlphanum
  | operation _ _ _ ihleft ihright => exact isPlain_binary ihleft ihright

theorem IsCondition.isPlain {n : Node} (h : n.IsCondition Token.IsLexical) : n.IsPlain := by
  induction h with
  | comparison _ hleft hright => exact isPlain_binary hleft.isPlain hright.isPlain
  | negation _ ih => exact .bare (List.forall_mem_singleton.mpr ih)
  | connection _ _ _ ihleft ihright => exact isPlain_binary ihleft ihright

theorem IsStatement.isPlain {n : Node} (h : n.IsStatement Token.IsLexical) : n.IsPlain := by
  induction h with
  | named _ htoken hname =>
    exact .bare (List.forall_mem_singleton.mpr (isPlain_ofName htoken hname))
  | assign htoken hname hvalue =>
    refine .intro (htoken.isName hname).isAlphanum nofun ?_
    exact List.forall_mem_cons.mpr
      ⟨isPlain_ofName htoken hname, List.forall_mem_singleton.mpr hvalue.isPlain⟩
  | whileLoop hcondition _ _ ih =>
    exact .bare (List.forall_mem_cons.mpr
      ⟨hcondition.isPlain, List.forall_mem_singleton.mpr (.bare ih)⟩)
  | ifElse hcondition _ _ _ _ ih ih' =>
    exact .bare (List.forall_mem_cons.mpr ⟨hcondition.isPlain,
      List.forall_mem_cons.mpr ⟨.bare ih, List.forall_mem_singleton.mpr (.bare ih')⟩⟩)

/-- The names and constants of a program are letters and digits. -/
theorem IsProgram.isPlain {tree : Node} (h : tree.IsProgram Token.IsLexical) : tree.IsPlain := by
  obtain ⟨-, hprocedures⟩ := h
  refine .bare fun p hp => ?_
  obtain ⟨htoken, hname, -, hbody⟩ := hprocedures p hp
  refine .intro (htoken.isName hname).isAlphanum nofun (List.forall_mem_singleton.mpr ?_)
  exact .bare fun s hs => (hbody s hs).isPlain

end Node

/-- The text of a tree determines the tree: plain trees, and so all trees of programs, have the same
text if and only if they are the same in kind, line, name, constant and children, down to the
leaves. -/
theorem display_eq_iff :
    (∀ a b : Node, a.IsPlain → b.IsPlain → (a.display = b.display ↔ a = b)) ∧
      ∀ source tree, programTree source = .ok tree → tree.IsPlain := by
  refine ⟨fun a b ha hb => ⟨fun htext => ?_, congrArg Node.display⟩, fun source tree htree => ?_⟩
  · refine (ha.isReadable b [] [] hb (by decide) (by decide) ?_).1
    rw [htext]
  · exact (isProgram_of_programTree htree).isPlain

/-- One assignment on the line of its procedure, and on the next line. -/
def assignmentAfter (gap : String) : String :=
  "procedure p \x7b" ++ gap ++ "x = y + 1; \x7d"

/-- The two programs have different trees, as some lines in them differ, and so the texts of the
trees are different. -/
theorem display_eq_iff_assignmentAfter : ∃ tree tree',
    programTree (assignmentAfter " ") = .ok tree ∧
      programTree (assignmentAfter "\n") = .ok tree' ∧ tree.IsPlain ∧ tree'.IsPlain ∧
      tree.variableNames = tree'.variableNames ∧ tree ≠ tree' ∧ tree.display ≠ tree'.display := by
  have hrun : (do
      let tree ← (programTree (assignmentAfter " ")).toOption
      let tree' ← (programTree (assignmentAfter "\n")).toOption
      return decide (tree.variableNames = tree'.variableNames ∧ tree ≠ tree')) = some true := by
    decide +kernel
  obtain ⟨tree, htree, hrun⟩ := Option.bind_eq_some_iff.mp hrun
  obtain ⟨tree', htree', hrun⟩ := Option.bind_eq_some_iff.mp hrun
  obtain ⟨hnames, hne⟩ := of_decide_eq_true (Option.some.inj hrun)
  have htree := eq_ok_of_toOption htree
  have htree' := eq_ok_of_toOption htree'
  have hplain := display_eq_iff.2 _ tree htree
  have hplain' := display_eq_iff.2 _ tree' htree'
  refine ⟨tree, tree', htree, htree', hplain, hplain', hnames, hne, fun htext => hne ?_⟩
  exact (display_eq_iff.1 tree tree' hplain hplain').mp htext

end ProgramQuery
