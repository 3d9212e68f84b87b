import Mathlib.Data.List.Sort
import ProgramQuery.Proofs.Views

/-!
# Follows* and Parent* are positions in the tree

Statements stand in blocks and nowhere else. So Follows relates neighbours in a block, and Parent a
statement with the members of its blocks, two steps below. Chains of these lead from a member of a
block to all later ones, and from a statement to all statements under it. Statements are numbered
in the order of their paths, and both relations lead to larger numbers. As there is at most one
partner in the direction of a walk, a walk from partner to partner ends.

## Main definitions

- `Node.IsPart`: what a node of a program can be.
- `Walks`: a walk from partner to partner, up to where there is none.

## Main statements

- `Node.IsProgram.mem_follows_iff`, `Node.IsProgram.mem_parents_iff`: both relations by paths.
- `Node.IsProgram.transGen_follows_iff`, `Node.IsProgram.transGen_parents_iff`: their chains.
- `FinRel.walks_reach`, `FinRel.walks_coreach`: chains to single partners are walks.
- `starred_iff_position`: both starred relations are positions in the tree.
-/

namespace ProgramQuery

/-! ## Numbers and paths -/

namespace Numbering

variable {tree : Node}

theorem exists_at?_of_numberOf? {path : Path} {number : Nat}
    (h : (ofTree tree).numberOf? path = some number) :
    ∃ m, tree.at? path = some m ∧ m.kind.isStatement = true := by
  rw [numberOf?_eq_some_iff] at h
  cases number with
  | zero => cases h
  | succ i => exact mem_paths_ofTree.mp (List.mem_of_getElem? h)

theorem mem_membersAt {path : Path} {number : Nat} :
    number ∈ (ofTree tree).membersAt tree path ↔ ∃ n i, tree.at? path = some n ∧
      i < n.children.length ∧ (ofTree tree).numberOf? (path ++ [i]) = some number := by
  rw [membersAt]
  cases tree.at? path with
  | none => simp
  | some n => simp

end Numbering

namespace Node

variable {good : Token → Prop}

/-! ## Members of blocks -/

theorem at?_concat_eq_some_iff {tree m : Node} {path : Path} {i : Nat} :
    tree.at? (path ++ [i]) = some m ↔
      ∃ n, tree.at? path = some n ∧ n.children[i]? = some m := by
  rw [at?_append, Option.bind_eq_some_iff]
  refine exists_congr fun n => and_congr_right fun _ => ?_
  rw [at?]
  cases n.children[i]? <;> rfl

theorem numberOf?_member {tree : Node} {path : Path} {line i : Nat} {body : List Node}
    (hat : tree.at? path = some (block line body)) (hbody : ∀ s ∈ body, s.IsStatement good)
    (hi : i < body.length) :
    (Numbering.ofTree tree).numberOf? (path ++ [i]) = some (tree.numberAt (path ++ [i])) := by
  have hchild : tree.at? (path ++ [i]) = some body[i] :=
    at?_concat_eq_some_iff.mpr ⟨_, hat, List.getElem?_eq_getElem hi⟩
  exact numberOf?_eq_numberAt hchild (hbody _ (List.getElem_mem hi)).isStatement_kind

theorem mem_links_none {path : Path} {i : Nat} {ns : List Node} {e : Path × Path} :
    e ∈ links path none i ns ↔
      ∃ j, i ≤ j ∧ j + 1 < i + ns.length ∧ e = (path ++ [j], path ++ [j + 1]) := by
  induction ns generalizing i with
  | nil =>
    refine ⟨fun he => absurd he List.not_mem_nil, ?_⟩
    rintro ⟨j, hij, hlt, -⟩
    rw [List.length_nil] at hlt
    omega
  | cons n ns ih =>
    cases ns with
    | nil =>
      refine ⟨fun he => absurd he List.not_mem_nil, ?_⟩
      rintro ⟨j, hij, hlt, -⟩
      rw [List.length_singleton] at hlt
      omega
    | cons n' ns =>
      rw [links_cons_cons, List.mem_cons, ih]
      simp only [List.length_cons]
      constructor
      · rintro (rfl | ⟨j, hij, hlt, rfl⟩)
        · exact ⟨i, le_rfl, by omega, rfl⟩
        · exact ⟨j, by omega, by omega, rfl⟩
      · rintro ⟨j, hij, hlt, rfl⟩
        rcases Nat.eq_or_lt_of_le hij with rfl | hij
        · exact .inl rfl
        · exact .inr ⟨j, by omega, by omega, rfl⟩

/-! ## Where statements stand -/

/-- The tree has no statement and no list of statements in it. -/
def IsOperand (n : Node) : Prop :=
  ∀ path m, n.at? path = some m → m.kind.isStatement = false ∧ m.kind ≠ .statementList

theorem IsExpression.isOperand {n : Node} (h : n.IsExpression good) : n.IsOperand :=
  fun _ _ hat => (h.at? hat).kind_eq

theorem IsCondition.isOperand {n : Node} (h : n.IsCondition good) : n.IsOperand :=
  fun _ _ hat => h.kind_eq_of_at? hat

theorem IsOperand.child {n c : Node} {i : Nat} (h : n.IsOperand) (hc : n.children[i]? = some c) :
    c.IsOperand := by
  intro path m hat
  refine h (i :: path) m ?_
  rw [at?, hc]
  exact hat

/-- A child of a statement is a block after a condition, or an operand. -/
theorem IsStatement.child {n c : Node} {i : Nat} (h : n.IsStatement good)
    (hc : n.children[i]? = some c) :
    n.kind.isContainer = true ∧ 1 ≤ i ∧ c.IsBlock good ∨ c.IsOperand := by
  cases h with
  | named _ htoken hname =>
    rcases i with _ | i
    · obtain rfl := Option.some.inj hc
      exact .inr (IsExpression.name htoken hname).isOperand
    · cases hc
  | assign htoken hname hvalue =>
    rcases i with _ | _ | i
    · obtain rfl := Option.some.inj hc
      exact .inr (IsExpression.name htoken hname).isOperand
    · obtain rfl := Option.some.inj hc
      exact .inr hvalue.isOperand
    · cases hc
  | whileLoop hcondition hne hbody =>
    rcases i with _ | _ | i
    · obtain rfl := Option.some.inj hc
      exact .inr hcondition.isOperand
    · obtain rfl := Option.some.inj hc
      exact .inl ⟨rfl, le_rfl, _, _, rfl, hne, hbody⟩
    · cases hc
  | ifElse hcondition hne hne' haccepted hrefused =>
    rcases i with _ | _ | _ | i
    · obtain rfl := Option.some.inj hc
      exact .inr hcondition.isOperand
    · obtain rfl := Option.some.inj hc
      exact .inl ⟨rfl, le_rfl, _, _, rfl, hne, haccepted⟩
    · obtain rfl := Option.some.inj hc
      exact .inl ⟨rfl, by omega, _, _, rfl, hne', hrefused⟩
    · cases hc

/-- The way from a statement down to another one leads through a block to a member of it. -/
theorem IsStatement.exists_of_at? {n m : Node} {i : Nat} {path : Path} (h : n.IsStatement good)
    (hat : n.at? (i :: path) = some m) (hm : m.kind.isStatement = true) :
    n.kind.isContainer = true ∧ 1 ≤ i ∧ ∃ body, n.children[i]? = some body ∧
      ∃ j rest s, path = j :: rest ∧ body.children[j]? = some s ∧ s.IsStatement good ∧
        s.at? rest = some m := by
  obtain ⟨c, hc, hat⟩ := Option.bind_eq_some_iff.mp hat
  rcases h.child hc with ⟨hcontainer, hi, line, body, rfl, -, hbody⟩ | hoperand
  · cases path with
    | nil =>
      obtain rfl := Option.some.inj hat
      cases hm
    | cons j rest =>
      obtain ⟨s, hs, hat⟩ := Option.bind_eq_some_iff.mp hat
      exact ⟨hcontainer, hi, _, hc, j, rest, s, rfl, hs, hbody s (List.mem_of_getElem? hs), hat⟩
  · rw [(hoperand path m hat).1] at hm
    cases hm

/-- A statement of a program stands in the body of a procedure. -/
theorem IsProgram.exists_of_at? {tree m : Node} {path : Path} (h : tree.IsProgram good)
    (hat : tree.at? path = some m) (hm : m.kind.isStatement = true) :
    ∃ i procedure line body, tree.children[i]? = some procedure ∧
      procedure.children = [block line body] ∧
      ∃ j rest s, path = i :: 0 :: j :: rest ∧ body[j]? = some s ∧ s.IsStatement good ∧
        s.at? rest = some m := by
  obtain ⟨-, hprocedures⟩ := h
  cases path with
  | nil =>
    obtain rfl := Option.some.inj hat
    cases hm
  | cons i path =>
    obtain ⟨procedure, hprocedure, hat⟩ := Option.bind_eq_some_iff.mp hat
    obtain ⟨-, -, -, hbody⟩ := hprocedures procedure (List.mem_of_getElem? hprocedure)
    rcases path with _ | ⟨_ | k, _ | ⟨j, rest⟩⟩
    · obtain rfl := Option.some.inj hat
      cases hm
    · obtain rfl := Option.some.inj hat
      cases hm
    · obtain ⟨b, hb, hat⟩ := Option.bind_eq_some_iff.mp hat
      obtain rfl := Option.some.inj hb
      obtain ⟨s, hs, hat⟩ := Option.bind_eq_some_iff.mp hat
      exact ⟨i, _, _, _, hprocedure, rfl, j, rest, s, rfl, hs, hbody s (List.mem_of_getElem? hs),
        hat⟩
    · cases hat
    · cases hat

/-- What a node of a program can be. -/
inductive IsPart (good : Token → Prop) : Node → Prop where
  | program {n : Node} (h : n.IsProgram good) : IsPart good n
  | procedure {n : Node} (h : n.IsProcedure good) : IsPart good n
  | block {n : Node} (h : n.IsBlock good) : IsPart good n
  | statement {n : Node} (h : n.IsStatement good) : IsPart good n
  | operand {n : Node} (h : n.IsOperand) : IsPart good n

/-- A child of a part is a part, and it is a statement only if the part is a block. -/
theorem IsPart.child {n c : Node} {i : Nat} (h : n.IsPart good) (hc : n.children[i]? = some c) :
    c.IsPart good ∧ (c.kind.isStatement = true → n.IsBlock good) := by
  have hmem := List.mem_of_getElem? hc
  have hblock : c.IsBlock good → c.kind.isStatement = true → n.IsBlock good := by
    rintro ⟨line, body, rfl, -, -⟩ hkind
    cases hkind
  have hoperand : c.IsOperand → c.kind.isStatement = true → n.IsBlock good := by
    intro h hkind
    rw [(h [] c rfl).1] at hkind
    cases hkind
  cases h with
  | program h =>
    obtain ⟨-, hprocedures⟩ := h
    have hc := hprocedures c hmem
    refine ⟨.procedure hc, fun hkind => ?_⟩
    obtain ⟨-, -, -, -⟩ := hc
    cases hkind
  | procedure h =>
    obtain ⟨-, -, hne, hbody⟩ := h
    obtain rfl := List.mem_singleton.mp hmem
    exact ⟨.block ⟨_, _, rfl, hne, hbody⟩, hblock ⟨_, _, rfl, hne, hbody⟩⟩
  | block h =>
    obtain ⟨line, body, rfl, hne, hbody⟩ := h
    exact ⟨.statement (hbody c hmem), fun _ => ⟨line, body, rfl, hne, hbody⟩⟩
  | statement h =>
    rcases h.child hc with ⟨-, -, h⟩ | h
    · exact ⟨.block h, hblock h⟩
    · exact ⟨.operand h, hoperand h⟩
  | operand h => exact ⟨.operand (h.child hc), hoperand (h.child hc)⟩

theorem IsPart.at? {n m : Node} {path : Path} (h : n.IsPart good) (hat : n.at? path = some m) :
    m.IsPart good := by
  induction path generalizing n with
  | nil => exact Option.some.inj hat ▸ h
  | cons i path ih =>
    obtain ⟨c, hc, hat⟩ := Option.bind_eq_some_iff.mp hat
    exact ih (h.child hc).1 hat

section Positions

variable {tree : Node} (h : tree.IsProgram good)

include h

/-- A statement is a member of a block. -/
theorem IsProgram.exists_block {m : Node} {path : Path} {i : Nat}
    (hat : tree.at? (path ++ [i]) = some m) (hm : m.kind.isStatement = true) :
    ∃ line body, tree.at? path = some (block line body) ∧ body[i]? = some m ∧
      ∀ s ∈ body, s.IsStatement good := by
  obtain ⟨n, hn, hc⟩ := at?_concat_eq_some_iff.mp hat
  obtain ⟨line, body, rfl, -, hbody⟩ := ((IsPart.program h).at? hn |>.child hc).2 hm
  exact ⟨line, body, hn, hc, hbody⟩

/-- The earlier members of the block of a statement are numbered as well. -/
theorem IsProgram.exists_sibling {path : Path} {i j b : Nat}
    (hb : (Numbering.ofTree tree).numberOf? (path ++ [j]) = some b) (hij : i ≤ j) :
    ∃ a, (Numbering.ofTree tree).numberOf? (path ++ [i]) = some a := by
  obtain ⟨m, hat, hm⟩ := Numbering.exists_at?_of_numberOf? hb
  obtain ⟨line, body, hblock, hj, hbody⟩ := h.exists_block hat hm
  have hi : i < body.length := by
    have := (List.getElem?_eq_some_iff.mp hj).1
    omega
  exact ⟨_, numberOf?_member hblock hbody hi⟩

/-- A statement follows another one if they are neighbours in a block. -/
theorem IsProgram.mem_follows_iff {a b : Nat} : (a, b) ∈ tree.follows.pairs ↔ ∃ path i,
    (Numbering.ofTree tree).numberOf? (path ++ [i]) = some a ∧
      (Numbering.ofTree tree).numberOf? (path ++ [i + 1]) = some b := by
  rw [mem_follows h]
  constructor
  · rintro ⟨path, m, hat, hkind, he⟩
    obtain ⟨line, body, rfl, -, hbody⟩ := (h.isWellFormed_of_at? hat).block hkind
    obtain ⟨edge, hedge, heq⟩ := List.mem_map.mp he
    obtain ⟨i, -, hi, rfl⟩ := mem_links_none.mp hedge
    obtain ⟨rfl, rfl⟩ := Prod.mk.inj heq
    exact ⟨path, i, numberOf?_member hat hbody (by omega), numberOf?_member hat hbody (by omega)⟩
  · rintro ⟨path, i, ha, hb⟩
    obtain ⟨m, hat, hm⟩ := Numbering.exists_at?_of_numberOf? hb
    obtain ⟨line, body, hblock, hi, hbody⟩ := h.exists_block hat hm
    have hlt := (List.getElem?_eq_some_iff.mp hi).1
    refine ⟨path, _, hblock, rfl, List.mem_map.mpr ⟨(path ++ [i], path ++ [i + 1]), ?_, ?_⟩⟩
    · exact mem_links_none.mpr ⟨i, Nat.zero_le i, by omega, rfl⟩
    · rw [Prod.map_apply, numberAt_eq ha, numberAt_eq hb]

/-- A statement is the parent of the members of its blocks. -/
theorem IsProgram.mem_parents_iff {a b : Nat} : (a, b) ∈ tree.parents.pairs ↔ ∃ path i j,
    (Numbering.ofTree tree).numberOf? path = some a ∧
      (Numbering.ofTree tree).numberOf? (path ++ [i, j]) = some b := by
  constructor
  · intro hab
    obtain ⟨s, hs, hab⟩ := List.mem_flatMap.mp hab
    obtain ⟨i, -, hab⟩ := List.mem_flatMap.mp hab
    obtain ⟨member, hmember, heq⟩ := List.mem_map.mp hab
    obtain ⟨rfl, rfl⟩ := Prod.mk.inj heq
    obtain ⟨-, -, hnumber⟩ := mem_statements.mp (List.mem_filter.mp hs).1
    obtain ⟨-, j, -, -, hj⟩ := Numbering.mem_membersAt.mp hmember
    rw [List.append_assoc] at hj
    exact ⟨s.path, i, j, hnumber, hj⟩
  · rintro ⟨path, i, j, ha, hb⟩
    obtain ⟨n, hn, hkind⟩ := Numbering.exists_at?_of_numberOf? ha
    obtain ⟨m, hm, hkind'⟩ := Numbering.exists_at?_of_numberOf? hb
    rw [at?_append, hn, Option.bind_some] at hm
    obtain ⟨hcontainer, hi, body, hc, j', rest, s, heq, hs, -, -⟩ :=
      ((h.isWellFormed_of_at? hn).statement hkind).exists_of_at? hm hkind'
    obtain ⟨rfl, rfl⟩ := List.cons.inj heq
    have hblock : tree.at? (path ++ [i]) = some body := at?_concat_eq_some_iff.mpr ⟨n, hn, hc⟩
    have hmember : b ∈ (Numbering.ofTree tree).membersAt tree (path ++ [i]) := by
      refine Numbering.mem_membersAt.mpr ⟨body, j, hblock, ?_, by rw [List.append_assoc]; exact hb⟩
      exact (List.getElem?_eq_some_iff.mp hs).1
    have hrange : i ∈ List.range' 1 (n.children.length - 1) := by
      have hlt := (List.getElem?_eq_some_iff.mp hc).1
      exact List.mem_range'_1.mpr ⟨hi, by omega⟩
    have hs : ⟨a, path, n⟩ ∈ tree.containers :=
      List.mem_filter.mpr ⟨mem_statements.mpr ⟨hn, hkind, ha⟩, hcontainer⟩
    exact List.mem_flatMap.mpr ⟨_, hs, List.mem_flatMap.mpr ⟨i, hrange,
      List.mem_map.mpr ⟨b, hmember, rfl⟩⟩⟩

/-! ## Chains -/

/-- A chain of followers leads from a member of a block to a later one. -/
theorem IsProgram.transGen_follows_iff {a b : Nat} :
    Relation.TransGen (fun a b => (a, b) ∈ tree.follows.pairs) a b ↔
      ∃ path i j, (Numbering.ofTree tree).numberOf? (path ++ [i]) = some a ∧
        (Numbering.ofTree tree).numberOf? (path ++ [j]) = some b ∧ i < j := by
  constructor
  · intro hab
    induction hab with
    | single hab =>
      obtain ⟨path, i, ha, hb⟩ := h.mem_follows_iff.mp hab
      exact ⟨path, i, i + 1, ha, hb, Nat.lt_succ_self i⟩
    | tail _ hbc ih =>
      obtain ⟨path, i, j, ha, hb, hij⟩ := ih
      obtain ⟨path', j', hb', hc⟩ := h.mem_follows_iff.mp hbc
      -- both steps are about the same block
      obtain ⟨rfl, hj⟩ := List.append_inj' (Numbering.numberOf?_injective hb hb') rfl
      obtain rfl : j = j' := List.singleton_inj.mp hj
      exact ⟨path, i, j + 1, ha, hc, by omega⟩
  · rintro ⟨path, i, j, ha, hb, hij⟩
    induction j generalizing b with
    | zero => omega
    | succ j ih =>
      obtain ⟨c, hc⟩ := h.exists_sibling hb (Nat.le_succ j)
      have hcb := h.mem_follows_iff.mpr ⟨path, j, hc, hb⟩
      rcases Nat.eq_or_lt_of_le (Nat.le_of_lt_succ hij) with rfl | hij
      · obtain rfl := Option.some.inj (ha.symm.trans hc)
        exact .single hcb
      · exact .tail (ih hc hij) hcb

/-- Each step of a chain of parents goes down to a member of a block. -/
theorem IsProgram.transGen_parents {path rest : Path} {a b : Nat}
    (ha : (Numbering.ofTree tree).numberOf? path = some a)
    (hb : (Numbering.ofTree tree).numberOf? (path ++ rest) = some b) (hne : rest ≠ []) :
    Relation.TransGen (fun a b => (a, b) ∈ tree.parents.pairs) a b := by
  obtain ⟨n, hn, hkind⟩ := Numbering.exists_at?_of_numberOf? ha
  obtain ⟨m, hm, hkind'⟩ := Numbering.exists_at?_of_numberOf? hb
  rw [at?_append, hn, Option.bind_some] at hm
  cases rest with
  | nil => contradiction
  | cons i rest =>
    obtain ⟨-, -, body, hc, j, rest, s, rfl, hs, hstatement, -⟩ :=
      ((h.isWellFormed_of_at? hn).statement hkind).exists_of_at? hm hkind'
    have hat : tree.at? (path ++ [i, j]) = some s := by
      simp [at?_append, hn, at?, hc, hs]
    have hnumber := numberOf?_eq_numberAt hat hstatement.isStatement_kind
    have hstep := h.mem_parents_iff.mpr ⟨path, i, j, ha, hnumber⟩
    have hb' : (Numbering.ofTree tree).numberOf? (path ++ [i, j] ++ rest) = some b := by
      rw [List.append_assoc]
      exact hb
    by_cases hrest : rest = []
    · rw [hrest, List.append_nil, hnumber] at hb'
      exact .single (Option.some.inj hb' ▸ hstep)
    · exact .head hstep (IsProgram.transGen_parents hnumber hb' hrest)
termination_by rest.length

/-- A chain of parents leads from a statement to every statement below it. -/
theorem IsProgram.transGen_parents_iff {a b : Nat} :
    Relation.TransGen (fun a b => (a, b) ∈ tree.parents.pairs) a b ↔
      ∃ path rest, (Numbering.ofTree tree).numberOf? path = some a ∧
        (Numbering.ofTree tree).numberOf? (path ++ rest) = some b ∧ rest ≠ [] := by
  constructor
  · intro hab
    induction hab with
    | single hab =>
      obtain ⟨path, i, j, ha, hb⟩ := h.mem_parents_iff.mp hab
      exact ⟨path, [i, j], ha, hb, by simp⟩
    | tail _ hbc ih =>
      obtain ⟨path, rest, ha, hb, -⟩ := ih
      obtain ⟨path', i, j, hb', hc⟩ := h.mem_parents_iff.mp hbc
      obtain rfl := Numbering.numberOf?_injective hb hb'
      rw [List.append_assoc] at hc
      exact ⟨path, rest ++ [i, j], ha, hc, by simp⟩
  · rintro ⟨path, rest, ha, hb, hne⟩
    exact h.transGen_parents ha hb hne

/-! ## Order -/

theorem IsProgram.lt_of_mem_follows {a b : Nat} (hab : (a, b) ∈ tree.follows.pairs) : a < b := by
  obtain ⟨path, i, ha, hb⟩ := h.mem_follows_iff.mp hab
  refine (Numbering.lt_iff ha hb).mp (List.append_left_lt ?_)
  exact List.cons_lt_cons_iff.mpr (.inl (Nat.lt_succ_self i))

theorem IsProgram.lt_of_mem_parents {a b : Nat} (hab : (a, b) ∈ tree.parents.pairs) : a < b := by
  obtain ⟨path, i, j, ha, hb⟩ := h.mem_parents_iff.mp hab
  rw [← List.append_nil path] at ha
  exact (Numbering.lt_iff ha hb).mp (List.append_left_lt (List.nil_lt_cons i [j]))

theorem IsProgram.follows_right_unique {a b c : Nat} (hab : (a, b) ∈ tree.follows.pairs)
    (hac : (a, c) ∈ tree.follows.pairs) : b = c := by
  obtain ⟨path, i, ha, hb⟩ := h.mem_follows_iff.mp hab
  obtain ⟨path', i', ha', hc⟩ := h.mem_follows_iff.mp hac
  obtain ⟨rfl, hi⟩ := List.append_inj' (Numbering.numberOf?_injective ha ha') rfl
  obtain rfl : i = i' := List.singleton_inj.mp hi
  exact Option.some.inj (hb.symm.trans hc)

theorem IsProgram.follows_left_unique {a b c : Nat} (hac : (a, c) ∈ tree.follows.pairs)
    (hbc : (b, c) ∈ tree.follows.pairs) : a = b := by
  obtain ⟨path, i, ha, hc⟩ := h.mem_follows_iff.mp hac
  obtain ⟨path', i', hb, hc'⟩ := h.mem_follows_iff.mp hbc
  obtain ⟨rfl, hi⟩ := List.append_inj' (Numbering.numberOf?_injective hc hc') rfl
  obtain rfl : i = i' := Nat.succ.inj (List.singleton_inj.mp hi)
  exact Option.some.inj (ha.symm.trans hb)

theorem IsProgram.parents_left_unique {a b c : Nat} (hac : (a, c) ∈ tree.parents.pairs)
    (hbc : (b, c) ∈ tree.parents.pairs) : a = b := by
  obtain ⟨path, i, j, ha, hc⟩ := h.mem_parents_iff.mp hac
  obtain ⟨path', i', j', hb, hc'⟩ := h.mem_parents_iff.mp hbc
  obtain ⟨rfl, -⟩ := List.append_inj' (Numbering.numberOf?_injective hc hc') rfl
  exact Option.some.inj (ha.symm.trans hb)

end Positions

end Node

/-! ## Walks -/

/-- A walk from a number to its only partner, on to the only partner of that, and so on. It ends at
a number without a partner. -/
inductive Walks (partners : Nat → List Nat) : Nat → List Nat → Prop where
  | stop {n : Nat} (h : partners n = []) : Walks partners n []
  | step {n m : Nat} {rest : List Nat} (h : partners n = [m]) (hrest : Walks partners m rest) :
      Walks partners n (m :: rest)

/-- Lists that grow by one partner at a time are walks. -/
theorem walks_of_step {partners : Nat → List Nat} (chain : Nat → List Nat)
    (h : ∀ n, partners n = [] ∧ chain n = [] ∨ ∃ m, partners n = [m] ∧ chain n = m :: chain m)
    (n : Nat) : Walks partners n (chain n) := by
  induction hlength : (chain n).length generalizing n with
  | zero =>
    rcases h n with ⟨hnone, hchain⟩ | ⟨m, -, hchain⟩
    · rw [hchain]
      exact .stop hnone
    · rw [hchain] at hlength
      cases hlength
  | succ length ih =>
    rcases h n with ⟨-, hchain⟩ | ⟨m, hpartner, hchain⟩
    · rw [hchain] at hlength
      cases hlength
    · rw [hchain] at hlength ⊢
      exact .step hpartner (ih m (Nat.succ.inj hlength))

theorem pairwise_lt_ascending (l : List Nat) : (ascending l).Pairwise (· < ·) :=
  (pairwise_ascending l).imp Nat.compare_eq_lt.mp

theorem ascending_eq_of_mem_iff {l m : List Nat} (hm : m.Pairwise (· < ·))
    (h : ∀ x, x ∈ ascending l ↔ x ∈ m) : ascending l = m :=
  (pairwise_lt_ascending l).eq_of_mem_iff hm h

namespace FinRel

variable {r : FinRel Nat Nat} (hlt : ∀ a b, (a, b) ∈ r.pairs → a < b)

include hlt

theorem lt_of_transGen {a b : Nat} (hab : Relation.TransGen (fun a b => (a, b) ∈ r.pairs) a b) :
    a < b := by
  induction hab with
  | single hab => exact hlt _ _ hab
  | tail _ hbc ih => exact ih.trans (hlt _ _ hbc)

/-- If right partners are larger and there is never more than one, a chain goes from each to the
next. -/
theorem walks_reach (hunique : ∀ a b c, (a, b) ∈ r.pairs → (a, c) ∈ r.pairs → b = c) (n : Nat) :
    Walks r.image n (r.reach n) := by
  refine walks_of_step r.reach (fun a => ?_) n
  by_cases hpartner : ∃ b, (a, b) ∈ r.pairs
  · obtain ⟨b, hab⟩ := hpartner
    have hsorted : (b :: r.reach b).Pairwise (· < ·) := by
      refine List.pairwise_cons.mpr ⟨fun x hx => ?_, pairwise_lt_ascending _⟩
      exact lt_of_transGen hlt (mem_reach.mp hx)
    refine .inr ⟨b, ascending_eq_of_mem_iff (List.pairwise_singleton _ b) fun x => ?_,
      ascending_eq_of_mem_iff hsorted fun x => ?_⟩
    · rw [← image, mem_image, List.mem_singleton]
      exact ⟨fun hax => hunique a x b hax hab, fun hx => hx ▸ hab⟩
    · rw [← reach, mem_reach, List.mem_cons, mem_reach, Relation.TransGen.head'_iff]
      simp only [Relation.reflTransGen_iff_eq_or_transGen]
      constructor
      · rintro ⟨c, hac, hcx⟩
        rw [hunique a b c hab hac]
        exact hcx
      · exact fun hbx => ⟨b, hab, hbx⟩
  · refine .inl ⟨List.eq_nil_iff_forall_not_mem.mpr fun b hb => ?_,
      List.eq_nil_iff_forall_not_mem.mpr fun b hb => ?_⟩
    · exact hpartner ⟨b, mem_image.mp hb⟩
    · obtain ⟨c, hac, -⟩ := Relation.TransGen.head'_iff.mp (mem_reach.mp hb)
      exact hpartner ⟨c, hac⟩

/-- If left partners are smaller and there is never more than one, a chain goes back from each to
the one before. -/
theorem walks_coreach (hunique : ∀ a b c, (a, c) ∈ r.pairs → (b, c) ∈ r.pairs → a = b) (n : Nat) :
    Walks r.preimage n (r.coreach n).reverse := by
  refine walks_of_step (fun c => (r.coreach c).reverse) (fun c => ?_) n
  by_cases hpartner : ∃ b, (b, c) ∈ r.pairs
  · obtain ⟨b, hbc⟩ := hpartner
    have hsorted : (r.coreach b ++ [b]).Pairwise (· < ·) := by
      refine List.pairwise_append.mpr ⟨pairwise_lt_ascending _, List.pairwise_singleton _ b, ?_⟩
      intro x hx y hy
      rw [List.mem_singleton.mp hy]
      exact lt_of_transGen hlt (mem_coreach.mp hx)
    have hstep : r.coreach c = r.coreach b ++ [b] := by
      refine ascending_eq_of_mem_iff hsorted fun x => ?_
      rw [← coreach, mem_coreach, List.mem_append, mem_coreach, List.mem_singleton,
        Relation.TransGen.tail'_iff]
      simp only [Relation.reflTransGen_iff_eq_or_transGen]
      constructor
      · rintro ⟨a, hxa, hac⟩
        rw [hunique b a c hbc hac]
        exact hxa.symm.imp_right Eq.symm
      · exact fun hxb => ⟨b, hxb.symm.imp_left Eq.symm, hbc⟩
    refine .inr ⟨b, ascending_eq_of_mem_iff (List.pairwise_singleton _ b) fun x => ?_, ?_⟩
    · rw [← preimage, mem_preimage, List.mem_singleton]
      exact ⟨fun hxc => hunique x b c hxc hbc, fun hx => hx ▸ hbc⟩
    · rw [hstep, List.reverse_append]
      rfl
  · refine .inl ⟨List.eq_nil_iff_forall_not_mem.mpr fun b hb => ?_, List.reverse_eq_nil_iff.mpr
      (List.eq_nil_iff_forall_not_mem.mpr fun b hb => ?_)⟩
    · exact hpartner ⟨b, mem_preimage.mp hb⟩
    · obtain ⟨a, -, hac⟩ := Relation.TransGen.tail'_iff.mp (mem_coreach.mp hb)
      exact hpartner ⟨a, hac⟩

end FinRel

/-! ## Whole programs -/

namespace Node.IsProgram

variable {good : Token → Prop} {tree : Node} (h : tree.IsProgram good) {a b : Nat} {p q : Path}
  (ha : (Numbering.ofTree tree).pathOf? a = some p)
  (hb : (Numbering.ofTree tree).pathOf? b = some q)

include h ha hb

/-- Follows* leads to the later members of the same block. -/
theorem links_follows_iff : tree.follows.Links true a b ↔
    ∃ path i j, p = path ++ [i] ∧ q = path ++ [j] ∧ i < j := by
  refine h.transGen_follows_iff.trans ?_
  simp only [Numbering.numberOf?_eq_some_iff, ha, hb, Option.some.injEq]

/-- Parent* leads to everything below. -/
theorem links_parents_iff : tree.parents.Links true a b ↔ p <+: q ∧ p ≠ q := by
  refine h.transGen_parents_iff.trans ?_
  simp only [Numbering.numberOf?_eq_some_iff, ha, hb, Option.some.injEq]
  constructor
  · rintro ⟨path, rest, rfl, rfl, hne⟩
    exact ⟨List.prefix_append p rest, fun heq => hne (List.self_eq_append_right.mp heq)⟩
  · rintro ⟨⟨rest, rfl⟩, hne⟩
    exact ⟨p, rest, rfl, rfl, fun hnil => hne (by rw [hnil, List.append_nil])⟩

end Node.IsProgram

theorem isProgram_of_programTree {source : String} {tree : Node}
    (h : programTree source = .ok tree) : tree.IsProgram Token.IsLexical := by
  obtain ⟨ts, hts, hparse⟩ := exists_of_bind_eq_ok h
  exact isProgram_of_parseProgram (eq_ok_of_mapError hparse)
    (isLexical_of_tokenize (eq_ok_of_mapError hts))

theorem exists_gather_of_ofSource {source : String} {tree : Node} {facts : Facts}
    (htree : programTree source = .ok tree) (hfacts : Facts.ofSource source = .ok facts) :
    ∃ order, facts = Facts.gather tree order := by
  rw [Facts.ofSource, htree] at hfacts
  obtain ⟨⟨⟩, -, hfacts⟩ := exists_of_bind_eq_ok (eq_ok_of_mapError hfacts)
  obtain ⟨order, -, hfacts⟩ := exists_of_bind_eq_ok hfacts
  exact ⟨order, (Except.ok.inj hfacts).symm⟩

/-- Follows* and Parent* are positions in the tree of a program. A statement comes after another one
if both are children of the same node and it is the later child, and below it if its path is longer
than that of the other and starts with it; and both relations are the same when they are asked
backwards. All these lists are strictly ascending. Three of them are what a walk from partner to
partner meets, which goes on as long as there is a partner: forwards along Follows, and backwards
along Follows and along Parent. So these walks end, from whatever number they start. -/
theorem starred_iff_position {source : String} {tree : Node} {facts : Facts}
    (htree : programTree source = .ok tree) (hfacts : Facts.ofSource source = .ok facts) :
    (∀ a b p q, (Numbering.ofTree tree).pathOf? a = some p →
      (Numbering.ofTree tree).pathOf? b = some q →
      (b ∈ facts.follows.after a true ↔ ∃ path i j, p = path ++ [i] ∧ q = path ++ [j] ∧ i < j) ∧
      (a ∈ facts.follows.before b true ↔
        ∃ path i j, p = path ++ [i] ∧ q = path ++ [j] ∧ i < j) ∧
      (b ∈ facts.parent.after a true ↔ p <+: q ∧ p ≠ q) ∧
      (a ∈ facts.parent.before b true ↔ p <+: q ∧ p ≠ q)) ∧
    (∀ n, (facts.follows.after n true).Pairwise (· < ·) ∧
      (facts.follows.before n true).Pairwise (· < ·) ∧
      (facts.parent.after n true).Pairwise (· < ·) ∧
      (facts.parent.before n true).Pairwise (· < ·)) ∧
    ∀ n, Walks facts.follows.image n (facts.follows.after n true) ∧
      Walks facts.follows.preimage n (facts.follows.before n true).reverse ∧
      Walks facts.parent.preimage n (facts.parent.before n true).reverse := by
  have h := isProgram_of_programTree htree
  obtain ⟨order, rfl⟩ := exists_gather_of_ofSource htree hfacts
  have hfollows : (Facts.gather tree order).follows = tree.follows := rfl
  have hparent : (Facts.gather tree order).parent = tree.parents := rfl
  rw [hfollows, hparent]
  refine ⟨fun a b p q ha hb => ?_, fun n => ?_, fun n => ?_⟩
  · rw [FinRel.mem_after, FinRel.mem_before, FinRel.mem_after, FinRel.mem_before,
      h.links_follows_iff ha hb, h.links_parents_iff ha hb]
    exact ⟨.rfl, .rfl, .rfl, .rfl⟩
  · exact ⟨pairwise_lt_ascending _, pairwise_lt_ascending _, pairwise_lt_ascending _,
      pairwise_lt_ascending _⟩
  · have hlt : ∀ a b, (a, b) ∈ tree.follows.pairs → a < b := fun _ _ => h.lt_of_mem_follows
    have hlt' : ∀ a b, (a, b) ∈ tree.parents.pairs → a < b := fun _ _ => h.lt_of_mem_parents
    exact ⟨FinRel.walks_reach hlt (fun _ _ _ => h.follows_right_unique) n,
      FinRel.walks_coreach hlt (fun _ _ _ => h.follows_left_unique) n,
      FinRel.walks_coreach hlt' (fun _ _ _ => h.parents_left_unique) n⟩

/-- A loop with a branching in it, between two statements. -/
def branchingInLoop : String :=
  "procedure p \x7b a = 1; while (a < 9) \x7b if (a == 3) then \x7b a = a + 1; \x7d " ++
    "else \x7b b = 2; \x7d read c; \x7d print a; \x7d"

/-- Statement 5, in the second block of the branching, is below the branching and the loop. The
first and the last statement are in one block with the loop. -/
theorem starred_iff_position_branchingInLoop : ∃ tree facts,
    programTree branchingInLoop = .ok tree ∧ Facts.ofSource branchingInLoop = .ok facts ∧
      (Numbering.ofTree tree).pathOf? 1 = some [0, 0, 0] ∧
      (Numbering.ofTree tree).pathOf? 7 = some [0, 0, 2] ∧
      (Numbering.ofTree tree).pathOf? 2 = some [0, 0, 1] ∧
      (Numbering.ofTree tree).pathOf? 5 = some [0, 0, 1, 1, 0, 2, 0] ∧
      7 ∈ facts.follows.after 1 true ∧ 5 ∈ facts.parent.after 2 true ∧
      facts.follows.after 1 true = [2, 7] ∧ facts.parent.before 5 true = [2, 3] ∧
      Walks facts.follows.image 1 (facts.follows.after 1 true) ∧
      Walks facts.parent.preimage 5 (facts.parent.before 5 true).reverse := by
  have hrun : (do
      let tree ← (programTree branchingInLoop).toOption
      let facts ← (Facts.ofSource branchingInLoop).toOption
      let numbers := Numbering.ofTree tree
      return decide ((numbers.pathOf? 1 = some [0, 0, 0] ∧ numbers.pathOf? 7 = some [0, 0, 2] ∧
        numbers.pathOf? 2 = some [0, 0, 1] ∧ numbers.pathOf? 5 = some [0, 0, 1, 1, 0, 2, 0]) ∧
        facts.follows.after 1 true = [2, 7] ∧ facts.parent.before 5 true = [2, 3])) =
      some true := by
    decide +kernel
  obtain ⟨tree, htree, hrun⟩ := Option.bind_eq_some_iff.mp hrun
  obtain ⟨facts, hfacts, hrun⟩ := Option.bind_eq_some_iff.mp hrun
  obtain ⟨⟨h1, h7, h2, h5⟩, hafter, hbefore⟩ := of_decide_eq_true (Option.some.inj hrun)
  have htree := eq_ok_of_toOption htree
  have hfacts := eq_ok_of_toOption hfacts
  obtain ⟨hposition, -, hwalks⟩ := starred_iff_position htree hfacts
  refine ⟨tree, facts, htree, hfacts, h1, h7, h2, h5, ?_, ?_, hafter, hbefore, (hwalks 1).1,
    (hwalks 5).2.2⟩
  · exact (hposition 1 7 _ _ h1 h7).1.mpr ⟨[0, 0], 0, 2, rfl, rfl, by decide⟩
  · exact (hposition 2 5 _ _ h2 h5).2.2.1.mpr (by decide)

end ProgramQuery
