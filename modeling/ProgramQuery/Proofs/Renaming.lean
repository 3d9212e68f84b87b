import Mathlib.Data.Set.Function
import ProgramQuery.Proofs.Narrowing
import ProgramQuery.Proofs.QueryGrammar

/-!
# The names of synonyms do not matter

The synonyms of a query are renamed wherever they stand: where they are declared, selected and used
as arguments. The order in which clauses are applied, the order of constraints and the order of
columns all go by names, so an evaluation of the renamed query takes other steps. Its answer is the
same. An assignment for the renamed synonyms is pulled back along the renaming, and satisfies the
query pairwise if it satisfies the renamed one. For the other direction, a renaming that keeps
synonyms apart is undone by another one.

## Main definitions

- `Argument.rename`, `Clause.rename`, `Element.rename`, `Query.rename`: renaming of synonyms.
- `Query.declared`: the names of the declared synonyms.

## Main statements

- `Query.SatisfiesPairwise.of_rename`: assignments are pulled back along a renaming.
- `Query.rename_rename_eq_self`: a renaming can be undone.
- `answer_rename`: a renamed query has the same answer.
-/

namespace ProgramQuery

/-! ## Renaming -/

/-- The argument with its synonym renamed. Values and underscores stay as they are. -/
def Argument.rename (f : String → String) (a : Argument) : Argument :=
  if a.role = .synonym then { a with value := f a.value } else a

/-- The clause with its synonyms renamed. -/
def Clause.rename (f : String → String) (c : Clause) : Clause :=
  { c with left := c.left.rename f, right := c.right.rename f }

/-- The element with its synonym renamed. The question for the truth is about no synonym. -/
def Element.rename (f : String → String) (e : Element) : Element :=
  if e.kind = .boolean then e else { e with synonym := f e.synonym }

/-- The query with its synonyms renamed. -/
def Query.rename (f : String → String) (q : Query) : Query where
  declarations := q.declarations.map fun d => (f d.1, d.2)
  elements := q.elements.map (Element.rename f)
  clauses := q.clauses.map (Clause.rename f)

/-- The names of the declared synonyms. -/
def Query.declared (q : Query) : List String :=
  q.declarations.map Prod.fst

variable {f g : String → String} {facts : Facts}

namespace Argument

variable {a : Argument}

@[simp]
theorem kind_rename : (a.rename f).kind = a.kind := by
  unfold rename
  split <;> rfl

@[simp]
theorem role_rename : (a.rename f).role = a.role := by
  rw [role, role, kind_rename]

theorem value_rename : (a.rename f).value = if a.role = .synonym then f a.value else a.value := by
  unfold rename
  split <;> rfl

/-- A renamed argument stands for what the argument stands for under the assignment pulled back. -/
theorem denotes_rename {v : String → String} {value : String} :
    (a.rename f).Denotes v value ↔ a.Denotes (v ∘ f) value := by
  unfold Denotes
  rw [role_rename, value_rename]
  cases a.role <;> simp

theorem rename_rename_eq_self (h : a.role = .synonym → g (f a.value) = a.value) :
    (a.rename f).rename g = a := by
  by_cases hrole : a.role = .synonym
  · rw [rename, role_rename, if_pos hrole, kind_rename, value_rename, if_pos hrole, h hrole]
  · rw [rename, role_rename, if_neg hrole, rename, if_neg hrole]

theorem IsTyped.rename {declared declared' : Declarations} (ht : a.IsTyped declared)
    (h : a.role = .synonym →
      IsName (f a.value) ∧ declared'.lookup (f a.value) = declared.lookup a.value) :
    (a.rename f).IsTyped declared' := by
  cases ht with
  | @synonym kind sort x hdeclared _ hfits =>
    have hrole : (Argument.mk sort x).role = .synonym := EntityKind.role_of_fits hfits
    obtain ⟨hname, hlookup⟩ := h hrole
    rw [Argument.rename, if_pos hrole]
    exact .synonym (hlookup.trans hdeclared) hname hfits
  | name hname => exact .name hname
  | number hnumber => exact .number hnumber
  | wildcard => exact .wildcard

end Argument

namespace Clause

variable {c : Clause}

@[simp]
theorem synonyms_rename : (c.rename f).synonyms = c.synonyms.map f := by
  by_cases hl : c.left.role = .synonym <;> by_cases hr : c.right.role = .synonym <;>
    simp [synonyms, rename, Argument.value_rename, hl, hr]

/-- What a clause relates is a matter of its kind and its arguments' kinds. -/
theorem relates_rename {left right : String} :
    (c.rename f).Relates facts left right ↔ c.Relates facts left right := by
  have hconnection : Connection.ofClause? facts (c.rename f) = Connection.ofClause? facts c := rfl
  unfold Relates
  rw [hconnection]
  simp [rename]

theorem holds_rename {v : String → String} :
    (c.rename f).Holds facts v ↔ c.Holds facts (v ∘ f) := by
  refine exists_congr fun left => exists_congr fun right => ?_
  rw [relates_rename]
  exact and_congr Argument.denotes_rename (and_congr_left' Argument.denotes_rename)

/-- The static rules for a clause only ask what its synonyms are declared for. -/
theorem IsTyped.rename {declared declared' : Declarations} (ht : c.IsTyped declared)
    (h : ∀ x ∈ c.synonyms, IsName (f x) ∧ declared'.lookup (f x) = declared.lookup x) :
    (c.rename f).IsTyped declared' where
  left := ht.left.rename fun hrole => h _ (mem_synonyms.mpr (.inl ⟨hrole, rfl⟩))
  right := ht.right.rename fun hrole => h _ (mem_synonyms.mpr (.inr ⟨hrole, rfl⟩))
  left_ne_wildcard := by
    rw [Clause.rename, Argument.role_rename]
    exact ht.left_ne_wildcard
  ne_wildcard := by
    rw [Clause.rename, Argument.role_rename, Argument.role_rename]
    exact ht.ne_wildcard
  not_blank := ht.not_blank

theorem rename_rename_eq_self (h : ∀ x ∈ c.synonyms, g (f x) = x) : (c.rename f).rename g = c := by
  have hleft : (c.left.rename f).rename g = c.left :=
    Argument.rename_rename_eq_self fun hrole => h _ (mem_synonyms.mpr (.inl ⟨hrole, rfl⟩))
  have hright : (c.right.rename f).rename g = c.right :=
    Argument.rename_rename_eq_self fun hrole => h _ (mem_synonyms.mpr (.inr ⟨hrole, rfl⟩))
  rw [rename, rename, hleft, hright]

end Clause

namespace Element

variable {e : Element}

@[simp]
theorem kind_rename : (e.rename f).kind = e.kind := by
  unfold rename
  split <;> rfl

theorem synonym_rename (h : e.kind ≠ .boolean) : (e.rename f).synonym = f e.synonym := by
  rw [rename, if_neg h]

theorem rename_rename_eq_self (h : e.kind ≠ .boolean → g (f e.synonym) = e.synonym) :
    (e.rename f).rename g = e := by
  by_cases hkind : e.kind = .boolean
  · rw [rename, kind_rename, if_pos hkind, rename, if_pos hkind]
  · rw [rename, kind_rename, if_neg hkind, synonym_rename hkind, h hkind]

end Element

/-- A declaration is found under the new name if no other synonym has got that name. -/
theorem lookup_map_rename {declarations : Declarations} {x : String}
    (h : ∀ y ∈ declarations.map Prod.fst, f y = f x → y = x) :
    (declarations.map fun d => (f d.1, d.2)).lookup (f x) = declarations.lookup x := by
  induction declarations with
  | nil => rfl
  | cons d rest ih =>
    obtain ⟨y, kind⟩ := d
    rw [List.map_cons, List.forall_mem_cons] at h
    obtain ⟨hy, hrest⟩ := h
    rw [List.map_cons, Domains.lookup_cons_eq, Domains.lookup_cons_eq, ih hrest]
    by_cases hxy : x = y
    · rw [if_pos (congrArg f hxy), if_pos hxy]
    · rw [if_neg fun heq => hxy (hy heq.symm).symm, if_neg hxy]

namespace Query

variable {q : Query}

/-! ## Synonyms of a renamed query -/

theorem isBoolean_rename : (q.rename f).isBoolean = q.isBoolean := by
  rcases h : q.elements with _ | ⟨e, _ | ⟨e', rest⟩⟩ <;> simp [isBoolean, rename, h]

theorem mem_clauses_rename {c : Clause} (hc : c ∈ q.clauses) : c.rename f ∈ (q.rename f).clauses :=
  List.mem_map_of_mem hc

theorem mem_selected_rename {x : String} (hx : x ∈ q.selected) : f x ∈ (q.rename f).selected := by
  simp only [selected, mem_ascending, List.mem_map, List.mem_filter, decide_eq_true_eq] at hx ⊢
  obtain ⟨e, ⟨he, hkind⟩, rfl⟩ := hx
  exact ⟨e.rename f, ⟨List.mem_map_of_mem he, by simpa using hkind⟩, Element.synonym_rename hkind⟩

theorem mem_synonyms_rename {x : String} (hx : x ∈ q.synonyms) : f x ∈ (q.rename f).synonyms := by
  rw [synonyms, List.mem_append, List.mem_flatMap] at hx
  rcases hx with hselected | ⟨c, hc, hxc⟩
  · exact List.mem_append_left _ (mem_selected_rename hselected)
  · refine mem_synonyms_of_mem_clause (mem_clauses_rename hc) ?_
    rw [Clause.synonyms_rename]
    exact List.mem_map_of_mem hxc

theorem IsJoined.rename {x : String} (hx : q.IsJoined x) : (q.rename f).IsJoined (f x) := by
  induction hx with
  | selected hselected => exact .selected (mem_selected_rename hselected)
  | clause hseveral _ hc hxc hyc ih =>
    have hseveral' : (q.rename f).elements.length ≠ 1 := by
      rw [Query.rename, List.length_map]
      exact hseveral
    refine .clause hseveral' ih (mem_clauses_rename hc) ?_ ?_
    · rw [Clause.synonyms_rename]
      exact List.mem_map_of_mem hxc
    · rw [Clause.synonyms_rename]
      exact List.mem_map_of_mem hyc

/-! ## Assignments for a renamed query -/

/-- The renamed query declares the synonyms of the query for the same kinds of entities. -/
def KeepsKinds (f : String → String) (q : Query) : Prop :=
  ∀ x ∈ q.synonyms, (q.rename f).declarations.lookup (f x) = q.declarations.lookup x

theorem IsConsistent.of_rename (hkinds : q.KeepsKinds f) {F : String → String → Prop}
    (hF : (q.rename f).IsConsistent facts F) : q.IsConsistent facts fun x => F (f x) where
  nonempty x hx := hF.nonempty (f x) (mem_synonyms_rename hx)
  mem_domain x hx value hvalue := by
    have hmem := hF.mem_domain (f x) (mem_synonyms_rename hx) value hvalue
    rw [initialDomain, hkinds x hx] at hmem
    exact hmem
  ground c hc hnone v := by
    have hholds := hF.ground _ (mem_clauses_rename hc)
      (by rw [Clause.synonyms_rename, hnone]; rfl) v
    -- the clause is about no synonym, so any assignment will do
    refine (Clause.holds_rename.mp hholds).congr fun x hx => ?_
    rw [hnone] at hx
    cases hx
  extend x hx y hy value hvalue := by
    obtain ⟨v, hvx, hvy, hholds⟩ :=
      hF.extend (f x) (mem_synonyms_rename hx) (f y) (mem_synonyms_rename hy) value hvalue
    refine ⟨v ∘ f, hvx, hvy, fun c hc hall => Clause.holds_rename.mp ?_⟩
    refine hholds _ (mem_clauses_rename hc) ?_
    rw [Clause.synonyms_rename, List.forall_mem_map]
    exact fun z hz => (hall z hz).imp (congrArg f) (congrArg f)

/-- An assignment for the renamed query is pulled back along the renaming. -/
theorem SatisfiesPairwise.of_rename (hkinds : q.KeepsKinds f) {v : String → String}
    (hv : (q.rename f).SatisfiesPairwise facts v) : q.SatisfiesPairwise facts (v ∘ f) := by
  obtain ⟨F, hF, hmem⟩ := hv.family
  refine ⟨⟨_, hF.of_rename hkinds, fun x hx => hmem (f x) hx.rename⟩, fun c hc hall => ?_⟩
  refine Clause.holds_rename.mp (hv.holds _ (mem_clauses_rename hc) ?_)
  rw [Clause.synonyms_rename, List.forall_mem_map]
  exact fun x hx => (hall x hx).rename

theorem Shows.of_rename (ht : q.IsTyped) (hboolean : q.isBoolean = false) {v : String → String}
    {row : Row} (h : (q.rename f).Shows facts v row) : q.Shows facts (v ∘ f) row := by
  rw [Shows, rename, List.forall₂_map_left_iff] at h
  have hkind : ∀ e ∈ q.elements, e.kind ≠ .boolean := by
    intro e he heq
    obtain ⟨kind, -, hmatch⟩ := isTyped_of_mem_elements ht hboolean he
    rw [heq] at hmatch
    exact hmatch
  refine ((List.forall₂_and_left _ _).mpr ⟨hkind, h⟩).imp fun e value hvalue => ?_
  obtain ⟨hne, hshown⟩ := hvalue
  rw [Element.kind_rename, Element.synonym_rename hne] at hshown
  exact hshown

theorem answerRows_rename_subset (hf : facts.IsWellFormed) (ht : q.IsTyped)
    (ht' : (q.rename f).IsTyped) (hkinds : q.KeepsKinds f) (hboolean : q.isBoolean = false) :
    (q.rename f).answerRows facts ⊆ q.answerRows facts := by
  intro row hrow
  obtain ⟨v, hv, hshows⟩ := (mem_answerRows hf ht' (isBoolean_rename.trans hboolean)).mp hrow
  exact (mem_answerRows hf ht hboolean).mpr
    ⟨v ∘ f, hv.of_rename hkinds, hshows.of_rename ht hboolean⟩

theorem answer_eq_true_of_rename (hf : facts.IsWellFormed) (ht : q.IsTyped)
    (ht' : (q.rename f).IsTyped) (hkinds : q.KeepsKinds f) (hboolean : q.isBoolean = true)
    (h : (q.rename f).answer facts = ["TRUE"]) : q.answer facts = ["TRUE"] := by
  obtain ⟨v, hv⟩ := (answer_eq_true hf ht' (isBoolean_rename.trans hboolean)).mp h
  exact (answer_eq_true hf ht hboolean).mpr ⟨v ∘ f, hv.of_rename hkinds⟩

/-! ## Renamings that keep synonyms apart -/

theorem mem_declared {x : String} {kind : EntityKind} (h : q.declarations.lookup x = some kind) :
    x ∈ q.declared :=
  QueryGrammar.isSome_lookup_iff.mp (by rw [h]; rfl)

/-- New names are kept apart by a way back to the old ones. -/
theorem injOn_declared_rename (h : ∀ x ∈ q.declared, g (f x) = x) :
    Set.InjOn g {x | x ∈ (q.rename f).declared} := by
  have hdeclared : ∀ y ∈ (q.rename f).declared, ∃ x ∈ q.declared, f x = y := by
    intro y hy
    simp only [declared, rename, List.map_map, List.mem_map] at hy ⊢
    obtain ⟨d, hd, rfl⟩ := hy
    exact ⟨d.1, ⟨d, hd, rfl⟩, rfl⟩
  intro y hy y' hy' heq
  obtain ⟨x, hx, rfl⟩ := hdeclared y hy
  obtain ⟨x', hx', rfl⟩ := hdeclared y' hy'
  rw [h x hx, h x' hx'] at heq
  rw [heq]

namespace IsTyped

variable (ht : q.IsTyped)

include ht

theorem mem_declared_of_mem_elements {e : Element} (he : e ∈ q.elements)
    (hkind : e.kind ≠ .boolean) : e.synonym ∈ q.declared := by
  have hboolean : q.isBoolean = false := by
    rw [isBoolean]
    split
    · rename_i e' helements
      rw [helements, List.mem_singleton] at he
      rw [← he]
      exact decide_eq_false hkind
    · rfl
  obtain ⟨kind, hdeclared, -⟩ := isTyped_of_mem_elements ht hboolean he
  exact mem_declared hdeclared

theorem mem_declared_of_mem_synonyms {x : String} (hx : x ∈ q.synonyms) : x ∈ q.declared := by
  rw [synonyms, List.mem_append, List.mem_flatMap] at hx
  rcases hx with hselected | ⟨c, hc, hxc⟩
  · simp only [selected, mem_ascending, List.mem_map, List.mem_filter, decide_eq_true_eq]
      at hselected
    obtain ⟨e, ⟨he, hkind⟩, rfl⟩ := hselected
    exact ht.mem_declared_of_mem_elements he hkind
  · have hargument : ∀ a : Argument, a.IsTyped q.declarations → a.role = .synonym →
        a.value ∈ q.declared := by
      intro a ha hrole
      cases ha with
      | synonym hdeclared => exact mem_declared hdeclared
      | name | number | wildcard => cases hrole
    rcases Clause.mem_synonyms.mp hxc with ⟨hrole, rfl⟩ | ⟨hrole, rfl⟩
    · exact hargument _ (ht.clauses c hc).left hrole
    · exact hargument _ (ht.clauses c hc).right hrole

theorem keepsKinds (hinj : Set.InjOn f {x | x ∈ q.declared}) : q.KeepsKinds f := by
  intro x hx
  exact lookup_map_rename fun y hy heq => hinj hy (ht.mem_declared_of_mem_synonyms hx) heq

/-- A renaming is undone by one that leads back from the new names. -/
theorem rename_rename_eq_self (h : ∀ x ∈ q.declared, g (f x) = x) : (q.rename f).rename g = q := by
  have hsynonym : ∀ x ∈ q.synonyms, g (f x) = x := fun x hx =>
    h x (ht.mem_declared_of_mem_synonyms hx)
  have hdeclarations : (q.declarations.map fun d => (f d.1, d.2)).map (fun d => (g d.1, d.2)) =
      q.declarations := by
    rw [List.map_map]
    refine (List.map_congr_left fun d hd => ?_).trans (List.map_id _)
    exact Prod.ext (h d.1 (List.mem_map_of_mem hd)) rfl
  have helements : (q.elements.map (Element.rename f)).map (Element.rename g) = q.elements := by
    rw [List.map_map]
    refine (List.map_congr_left fun e he => ?_).trans (List.map_id _)
    exact Element.rename_rename_eq_self fun hkind =>
      h _ (ht.mem_declared_of_mem_elements he hkind)
  have hclauses : (q.clauses.map (Clause.rename f)).map (Clause.rename g) = q.clauses := by
    rw [List.map_map]
    refine (List.map_congr_left fun c hc => ?_).trans (List.map_id _)
    exact Clause.rename_rename_eq_self fun x hx => hsynonym x (mem_synonyms_of_mem_clause hc hx)
  rw [Query.rename, Query.rename, hdeclarations, helements, hclauses]

/-- The static rules do not depend on the names of synonyms. -/
theorem rename (hnames : ∀ x ∈ q.declared, IsName (f x)) (hkinds : q.KeepsKinds f) :
    (q.rename f).IsTyped where
  elements := by
    rw [isBoolean_rename]
    refine ht.elements.imp_right fun ⟨hne, htyped⟩ => ⟨by simpa [Query.rename] using hne, ?_⟩
    rw [Query.rename, List.forall_mem_map]
    intro e he
    obtain ⟨kind, hdeclared, hmatch⟩ := htyped e he
    have hkind : e.kind ≠ .boolean := by
      intro heq
      rw [heq] at hmatch
      exact hmatch
    have hselected : e.synonym ∈ q.selected := by
      simp only [selected, mem_ascending, List.mem_map, List.mem_filter, decide_eq_true_eq]
      exact ⟨e, ⟨he, hkind⟩, rfl⟩
    refine ⟨kind, ?_, by simpa using hmatch⟩
    rw [Element.synonym_rename hkind]
    exact (hkinds _ (List.mem_append_left _ hselected)).trans hdeclared
  clauses := by
    rw [Query.rename, List.forall_mem_map]
    intro c hc
    refine (ht.clauses c hc).rename fun x hx => ?_
    have hsynonym := mem_synonyms_of_mem_clause hc hx
    exact ⟨hnames x (ht.mem_declared_of_mem_synonyms hsynonym), hkinds x hsynonym⟩

end IsTyped

end Query

/-- The names of synonyms do not matter. If the synonyms of a query are renamed to names, and
different ones get different names, the answer is the same, line by line. -/
theorem answer_rename {source text : String} {facts : Facts} {q : Query} {f : String → String}
    (hlength : source.length < numeralBound) (hfacts : Facts.ofSource source = .ok facts)
    (hquery : Query.ofText text = .ok q) (hnames : ∀ x ∈ q.declared, IsName (f x))
    (hinj : Set.InjOn f {x | x ∈ q.declared}) : (q.rename f).answer facts = q.answer facts := by
  have hf := isWellFormed_of_ofSource hfacts hlength
  have ht := isTyped_of_ofText hquery
  have hkinds := ht.keepsKinds hinj
  have ht' := ht.rename hnames hkinds
  -- the renaming that leads back
  let g := Function.invFunOn f {x | x ∈ q.declared}
  have hback : ∀ x ∈ q.declared, g (f x) = x := fun x hx => hinj.leftInvOn_invFunOn hx
  have hself : (q.rename f).rename g = q := ht.rename_rename_eq_self hback
  have htself : ((q.rename f).rename g).IsTyped := by rw [hself]; exact ht
  have hkinds' : (q.rename f).KeepsKinds g := ht'.keepsKinds (Query.injOn_declared_rename hback)
  have hboolean' := Query.isBoolean_rename (f := f) (q := q)
  cases hboolean : q.isBoolean with
  | true =>
    have htrue : (q.rename f).answer facts = ["TRUE"] ↔ q.answer facts = ["TRUE"] := by
      refine ⟨Query.answer_eq_true_of_rename hf ht ht' hkinds hboolean, fun h => ?_⟩
      refine Query.answer_eq_true_of_rename hf ht' htself hkinds' (hboolean'.trans hboolean) ?_
      rw [hself]
      exact h
    rcases Query.answer_eq_or hboolean facts with h | h
    · rw [h, htrue.mpr h]
    · have hne : (q.rename f).answer facts ≠ ["TRUE"] := by
        rw [Ne, htrue, h]
        decide
      rw [h, (Query.answer_eq_or (hboolean'.trans hboolean) facts).resolve_left hne]
  | false =>
    have hsubset := Query.answerRows_rename_subset hf ht ht' hkinds hboolean
    have hsubset' : q.answerRows facts ⊆ (q.rename f).answerRows facts := by
      have h := Query.answerRows_rename_subset hf ht' htself hkinds' (hboolean'.trans hboolean)
      rw [hself] at h
      exact h
    have hrows : (q.rename f).answerRows facts = q.answerRows facts :=
      (Query.answerRows_sublist hsubset).antisymm (Query.answerRows_sublist hsubset')
    rw [Query.answer_eq_map (ht.isEmpty_eq_false hboolean) hboolean,
      Query.answer_eq_map (ht'.isEmpty_eq_false (hboolean'.trans hboolean))
        (hboolean'.trans hboolean), hrows]

/-- Exchanges three names in a circle, so that their order changes. -/
def exchanged (x : String) : String :=
  if x = "a" then "w" else if x = "w" then "v" else "a"

theorem isName_exchanged (x : String) : IsName (exchanged x) := by
  unfold exchanged
  split
  · exact ⟨'w', [], by decide, by decide, by decide⟩
  · split
    · exact ⟨'v', [], by decide, by decide, by decide⟩
    · exact ⟨'a', [], by decide, by decide, by decide⟩

/-- The question about assignments that feed a loop, with other names for its synonyms. -/
def feedsLoopExchanged : String :=
  "assign w; while v; variable a; " ++
    "Select <w, a> such that Next(w, v) and Uses(v, a) and Modifies(w, a)"

/-- Under exchanged names, the same question has the same answer. -/
theorem answer_rename_feedsLoop : ∃ facts q,
    countingUp.length < numeralBound ∧ Facts.ofSource countingUp = .ok facts ∧
      Query.ofText feedsLoop = .ok q ∧ (∀ x ∈ q.declared, IsName (exchanged x)) ∧
      Set.InjOn exchanged {x | x ∈ q.declared} ∧
      Query.ofText feedsLoopExchanged = .ok (q.rename exchanged) ∧
      q.answer facts = ["1 x", "3 x"] ∧ (q.rename exchanged).answer facts = q.answer facts := by
  have hlength : countingUp.length < numeralBound := by decide +kernel
  have hrun : (do
      let facts ← (Facts.ofSource countingUp).toOption
      let q ← (Query.ofText feedsLoop).toOption
      let q' ← (Query.ofText feedsLoopExchanged).toOption
      return decide (q' = q.rename exchanged ∧ q.answer facts = ["1 x", "3 x"] ∧
        ∀ x ∈ q.declared, ∀ y ∈ q.declared, exchanged x = exchanged y → x = y)) = some true := by
    decide +kernel
  obtain ⟨facts, hfacts, hrun⟩ := Option.bind_eq_some_iff.mp hrun
  obtain ⟨q, hquery, hrun⟩ := Option.bind_eq_some_iff.mp hrun
  obtain ⟨q', hquery', hrun⟩ := Option.bind_eq_some_iff.mp hrun
  obtain ⟨rfl, hanswer, hapart⟩ := of_decide_eq_true (Option.some.inj hrun)
  have hfacts := eq_ok_of_toOption hfacts
  have hquery := eq_ok_of_toOption hquery
  have hinj : Set.InjOn exchanged {x | x ∈ q.declared} := fun x hx y hy => hapart x hx y hy
  have hnames : ∀ x ∈ q.declared, IsName (exchanged x) := fun x _ => isName_exchanged x
  exact ⟨facts, q, hlength, hfacts, hquery, hnames, hinj, eq_ok_of_toOption hquery', hanswer,
    answer_rename hlength hfacts hquery hnames hinj⟩

end ProgramQuery
