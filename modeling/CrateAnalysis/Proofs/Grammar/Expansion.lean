import CrateAnalysis.Grammar.Crate
import CrateAnalysis.Proofs.Grammar.Forest
import CrateAnalysis.Proofs.Token.Terminal

/-!
# The grammar as it is written

The choices of a rule are written with optional parts, groups and repetitions. `Derivation` and
`DerivationTrees` give them their meaning without any helper nonterminal: each use of a rule takes
one of its choices, written out to a sequence of terminals and rules. The main statement is that
the context-free grammar of a crate, which has a nonterminal for each repetition, derives the same
words, and that each of its forests is a list of derivation trees.
-/

set_option autoImplicit false

namespace CrateAnalysis

/-- The words that terminals and rules stand for, each use of a rule by a choice written out. -/
inductive Derivation : List Atom → List Terminal → Prop
  | nil : Derivation [] []
  | terminal {t : Terminal} {atoms : List Atom} {word : List Terminal} :
      Derivation atoms word → Derivation (.terminal t :: atoms) (t :: word)
  | rule {r : RuleName} {choice : Choice} {inner atoms : List Atom} {u v : List Terminal} :
      choice ∈ choices r → choice.body.Matches inner → Derivation inner u →
      Derivation atoms v → Derivation (.rule r :: atoms) (u ++ v)

/-- The trees of terminals and rules. A terminal is a leaf of its kind. A rule is a node that
carries one of its choices written out: the node has the name of the choice, and its children
are trees of what the choice lists. -/
inductive DerivationTrees : List Atom → List Cst → Prop
  | nil : DerivationTrees [] []
  | terminal {t : Terminal} {leaf : Leaf} {atoms : List Atom} {trees : List Cst} :
      leaf.kind? = some t.name → DerivationTrees atoms trees →
      DerivationTrees (.terminal t :: atoms) (.leaf leaf :: trees)
  | rule {r : RuleName} {choice : Choice} {inner atoms : List Atom}
      {children trees : List Cst} :
      choice ∈ choices r → choice.body.Matches inner → DerivationTrees inner children →
      DerivationTrees atoms trees →
      DerivationTrees (.rule r :: atoms) (.rule (choice.nodeName r) children :: trees)

/-- The words that are a crate. -/
def IsCrate (word : List Terminal) : Prop := Derivation [.rule .crate] word

/-- Atoms in a row have the trees of each part, in a row. -/
theorem DerivationTrees.append {first second : List Atom} {trees others : List Cst}
    (h : DerivationTrees first trees) (h' : DerivationTrees second others) :
    DerivationTrees (first ++ second) (trees ++ others) := by
  induction h with
  | nil => exact h'
  | terminal hkind _ ih => exact .terminal hkind ih
  | rule hchoice hmatches hinner _ _ ih => exact .rule hchoice hmatches hinner ih

/-- The leaves of derivation trees are a word that is derived. -/
theorem DerivationTrees.derivation {atoms : List Atom} {trees : List Cst}
    (h : DerivationTrees atoms trees) :
    ∃ word, Derivation atoms word ∧
      (Tree.leavesAll trees).map Leaf.kind? = word.map fun t => some t.name := by
  induction h with
  | nil => exact ⟨[], .nil, rfl⟩
  | @terminal t leaf atoms trees hkind _ ih =>
    obtain ⟨word, hword, hkinds⟩ := ih
    refine ⟨t :: word, .terminal hword, ?_⟩
    simp [Tree.leavesAll, Tree.leaves, hkind, hkinds]
  | rule hchoice hmatches _ _ ihinner ih =>
    obtain ⟨u, hu, hkindsu⟩ := ihinner
    obtain ⟨v, hv, hkindsv⟩ := ih
    refine ⟨u ++ v, .rule hchoice hmatches hu hv, ?_⟩
    simp [Tree.leavesAll, Tree.leaves, hkindsu, hkindsv]

/-! ## Repetitions written out -/

/-- Symbols written out to terminals and rules: a repetition becomes one or more copies of what
is repeated. -/
inductive Expands : List (Symbol Terminal Nonterminal) → List Atom → Prop
  | nil : Expands [] []
  | terminal {t : Terminal} {symbols : List (Symbol Terminal Nonterminal)} {atoms : List Atom} :
      Expands symbols atoms → Expands (.terminal t :: symbols) (.terminal t :: atoms)
  | rule {r : RuleName} {symbols : List (Symbol Terminal Nonterminal)} {atoms : List Atom} :
      Expands symbols atoms → Expands (.nonterminal (.rule r) :: symbols) (.rule r :: atoms)
  | many {unit : List Atom} {n : Nat} {symbols : List (Symbol Terminal Nonterminal)}
      {atoms : List Atom} :
      Expands symbols atoms →
      Expands (.nonterminal (.many unit) :: symbols)
        ((List.replicate (n + 1) unit).flatten ++ atoms)

namespace Expands

/-- Symbols in a row are written out part by part. -/
theorem append {first second : List (Symbol Terminal Nonterminal)} {xs ys : List Atom}
    (hx : Expands first xs) (hy : Expands second ys) :
    Expands (first ++ second) (xs ++ ys) := by
  induction hx with
  | nil => exact hy
  | terminal _ ih => exact .terminal ih
  | rule _ ih => exact .rule ih
  | many _ ih =>
    rw [List.append_assoc]
    exact .many ih

/-- What symbols in a row are written out to falls into what each part is written out to. -/
theorem split {first second : List (Symbol Terminal Nonterminal)} {atoms : List Atom}
    (h : Expands (first ++ second) atoms) :
    ∃ xs ys, atoms = xs ++ ys ∧ Expands first xs ∧ Expands second ys := by
  induction first generalizing atoms with
  | nil => exact ⟨[], atoms, rfl, .nil, h⟩
  | cons symbol first ih =>
    cases h with
    | terminal h =>
      obtain ⟨xs, ys, rfl, hx, hy⟩ := ih h
      exact ⟨_ :: xs, ys, rfl, .terminal hx, hy⟩
    | rule h =>
      obtain ⟨xs, ys, rfl, hx, hy⟩ := ih h
      exact ⟨_ :: xs, ys, rfl, .rule hx, hy⟩
    | many h =>
      obtain ⟨xs, ys, rfl, hx, hy⟩ := ih h
      exact ⟨_ ++ xs, ys, (List.append_assoc ..).symm, .many hx, hy⟩

/-- Terminals and rules are already written out. -/
theorem eq_of_symbols {unit atoms : List Atom} (h : Expands (unit.map Atom.symbol) atoms) :
    atoms = unit := by
  induction unit generalizing atoms with
  | nil =>
    cases h
    rfl
  | cons atom unit ih =>
    cases atom with
    | terminal t =>
      cases h with
      | terminal h => rw [ih h]
    | rule r =>
      cases h with
      | rule h => rw [ih h]

end Expands

/-- What a body describes is one of its plain sequences, written out. -/
theorem Body.Matches.exists_expands {body : Body} {atoms : List Atom} (h : body.Matches atoms) :
    ∃ symbols ∈ body.sequences, Expands symbols atoms := by
  induction h with
  | empty => exact ⟨[], List.mem_singleton_self _, .nil⟩
  | token t => exact ⟨_, List.mem_singleton_self _, .terminal .nil⟩
  | rule r => exact ⟨_, List.mem_singleton_self _, .rule .nil⟩
  | many unit n =>
    cases n with
    | zero => exact ⟨[], List.mem_cons_of_mem _ (List.mem_singleton_self _), .nil⟩
    | succ n =>
      refine ⟨[.nonterminal (.many unit)], List.mem_cons_self, ?_⟩
      simpa using Expands.many (n := n) .nil
  | next _ _ ihfirst ihsecond =>
    obtain ⟨x, hx, hexpandsx⟩ := ihfirst
    obtain ⟨y, hy, hexpandsy⟩ := ihsecond
    refine ⟨x ++ y, ?_, hexpandsx.append hexpandsy⟩
    exact List.mem_flatMap.mpr ⟨x, hx, List.mem_map.mpr ⟨y, hy, rfl⟩⟩
  | left _ ih =>
    obtain ⟨x, hx, hexpands⟩ := ih
    exact ⟨x, List.mem_append_left _ hx, hexpands⟩
  | right _ ih =>
    obtain ⟨x, hx, hexpands⟩ := ih
    exact ⟨x, List.mem_append_right _ hx, hexpands⟩
  | present _ ih =>
    obtain ⟨x, hx, hexpands⟩ := ih
    exact ⟨x, List.mem_append_left _ hx, hexpands⟩
  | absent => exact ⟨[], List.mem_append_right _ (List.mem_singleton_self _), .nil⟩

/-- A plain sequence of a body, written out, is described by the body. -/
theorem Expands.matches {symbols : List (Symbol Terminal Nonterminal)} {atoms : List Atom}
    (hexpands : Expands symbols atoms) {body : Body} (hmem : symbols ∈ body.sequences) :
    body.Matches atoms := by
  induction body generalizing symbols atoms with
  | empty =>
    obtain rfl := List.mem_singleton.mp hmem
    cases hexpands
    exact .empty
  | nothing => cases hmem
  | token t =>
    obtain rfl := List.mem_singleton.mp hmem
    obtain rfl := @Expands.eq_of_symbols [.terminal t] _ hexpands
    exact .token t
  | rule r =>
    obtain rfl := List.mem_singleton.mp hmem
    obtain rfl := @Expands.eq_of_symbols [.rule r] _ hexpands
    exact .rule r
  | many unit =>
    rcases List.mem_cons.mp hmem with rfl | hmem
    · cases hexpands with
      | many hnil =>
        cases hnil
        rw [List.append_nil]
        exact .many unit _
    · obtain rfl := List.mem_singleton.mp hmem
      cases hexpands
      exact .many unit 0
  | next first second ihfirst ihsecond =>
    obtain ⟨x, hx, hmem⟩ := List.mem_flatMap.mp hmem
    obtain ⟨y, hy, rfl⟩ := List.mem_map.mp hmem
    obtain ⟨xs, ys, rfl, hxs, hys⟩ := hexpands.split
    exact .next (ihfirst hxs hx) (ihsecond hys hy)
  | either left right ihleft ihright =>
    rcases List.mem_append.mp hmem with hmem | hmem
    · exact .left (ihleft hexpands hmem)
    · exact .right (ihright hexpands hmem)
  | optional part ih =>
    rcases List.mem_append.mp hmem with hmem | hmem
    · exact .present (ih hexpands hmem)
    · obtain rfl := List.mem_singleton.mp hmem
      cases hexpands
      exact .absent

/-! ## The alternatives of a rule -/

/-- An alternative of a rule is a plain sequence of one of its choices, and it is labelled with
the name of that choice. -/
theorem exists_choice_of_mem {r : RuleName} {p : Production Terminal Nonterminal}
    (hp : p ∈ alternatives (.rule r)) :
    ∃ choice ∈ choices r, p.rhs ∈ choice.body.sequences ∧
      p.label? = some (choice.nodeName r) := by
  obtain ⟨i, hi, rfl⟩ := List.mem_mapIdx.mp hp
  obtain ⟨choice, hchoice, hmem⟩ := List.mem_flatMap.mp (List.getElem_mem hi)
  obtain ⟨symbols, hsymbols, heq⟩ := List.mem_map.mp hmem
  refine ⟨choice, hchoice, ?_, ?_⟩
  · rw [← heq]
    exact hsymbols
  · rw [← heq]

/-- Each plain sequence of a choice is the right-hand side of an alternative of the rule. -/
theorem exists_mem_of_choice {r : RuleName} {choice : Choice} (hchoice : choice ∈ choices r)
    {symbols : List (Symbol Terminal Nonterminal)} (hsymbols : symbols ∈ choice.body.sequences) :
    ∃ p ∈ alternatives (.rule r), p.rhs = symbols := by
  have hmem : (symbols, choice.nodeName r) ∈ rightHandSides r :=
    List.mem_flatMap.mpr ⟨choice, hchoice, List.mem_map.mpr ⟨symbols, hsymbols, rfl⟩⟩
  obtain ⟨i, hi, heq⟩ := List.mem_iff_getElem.mp hmem
  exact ⟨_, List.mem_mapIdx.mpr ⟨i, hi, rfl⟩, by rw [heq]⟩

/-! ## Both grammars derive the same -/

/-- One or more copies in a row are derived from the repetition. -/
theorem derives_many {unit : List Atom} (n : Nat) {word : List Terminal}
    (h : crateGrammar.Derives ((List.replicate (n + 1) unit).flatten.map Atom.symbol) word) :
    crateGrammar.Derives [.nonterminal (.many unit)] word := by
  induction n generalizing word with
  | zero =>
    refine Grammar.derives_nonterminal_iff.mpr ⟨_, List.mem_cons_self, ?_⟩
    simpa using h
  | succ n ih =>
    -- the last copy is taken off, since the repetition recurs on its left
    rw [List.replicate_succ', List.flatten_append, List.map_append] at h
    obtain ⟨u, v, rfl, hu, hv⟩ := h.split
    refine Grammar.derives_nonterminal_iff.mpr
      ⟨_, List.mem_cons_of_mem _ (List.mem_singleton_self _), ?_⟩
    exact (ih hu).append (by simpa using hv)

/-- Symbols derive whatever they derive once they are written out. -/
theorem Expands.derives {symbols : List (Symbol Terminal Nonterminal)} {atoms : List Atom}
    (h : Expands symbols atoms) {word : List Terminal}
    (hword : crateGrammar.Derives (atoms.map Atom.symbol) word) :
    crateGrammar.Derives symbols word := by
  induction h generalizing word with
  | nil => exact hword
  | terminal _ ih =>
    cases hword with
    | terminal hword => exact .terminal (ih hword)
  | rule _ ih =>
    cases hword with
    | nonterminal hp hrhs hword => exact .nonterminal hp hrhs (ih hword)
  | @many unit n symbols atoms _ ih =>
    rw [List.map_append] at hword
    obtain ⟨u, v, rfl, hu, hv⟩ := hword.split
    exact (derives_many n hu).append (ih hv)

/-- The grammar of a crate derives whatever the rules as they are written derive. -/
theorem Derivation.derives {atoms : List Atom} {word : List Terminal} (h : Derivation atoms word) :
    crateGrammar.Derives (atoms.map Atom.symbol) word := by
  induction h with
  | nil => exact .nil
  | terminal _ ih => exact .terminal ih
  | rule hchoice hmatches _ _ ihinner ih =>
    obtain ⟨symbols, hsymbols, hexpands⟩ := hmatches.exists_expands
    obtain ⟨p, hp, rfl⟩ := exists_mem_of_choice hchoice hsymbols
    exact .nonterminal hp (hexpands.derives ihinner) ih

/-- The trees of a repetition are trees of copies of what is repeated. -/
theorem exists_replicate_of_mem {unit inner : List Atom} {p : Production Terminal Nonterminal}
    (hp : p ∈ alternatives (.many unit)) (h : Expands p.rhs inner) :
    ∃ n, inner = (List.replicate (n + 1) unit).flatten := by
  rcases List.mem_cons.mp hp with rfl | hp
  · exact ⟨0, by simpa using h.eq_of_symbols⟩
  · obtain rfl := List.mem_singleton.mp hp
    cases h with
    | @many _ n _ _ h =>
      refine ⟨n + 1, ?_⟩
      rw [h.eq_of_symbols, List.replicate_succ' (n := n + 1), List.flatten_append,
        List.flatten_singleton]

/-- A forest of the grammar of a crate consists of derivation trees: every node carries a choice
written out, and the repetitions leave no node behind. -/
theorem Grammar.Forest.derivationTrees {symbols : List (Symbol Terminal Nonterminal)}
    {trees : List Cst} {word : List (Terminal × Leaf)}
    (h : crateGrammar.Forest symbols trees word)
    (hkinds : ∀ pair ∈ word, pair.2.kind? = some pair.1.name) :
    ∃ atoms, Expands symbols atoms ∧ DerivationTrees atoms trees := by
  induction h with
  | nil => exact ⟨[], .nil, .nil⟩
  | terminal _ ih =>
    obtain ⟨hkind, hkinds⟩ := List.forall_mem_cons.mp hkinds
    obtain ⟨atoms, hexpands, htrees⟩ := ih hkinds
    exact ⟨_, .terminal hexpands, .terminal hkind htrees⟩
  | @labelled n p label _ _ _ _ _ hp hlabel _ _ ihinner ih =>
    obtain ⟨hkindsu, hkindsv⟩ := List.forall_mem_append.mp hkinds
    obtain ⟨inner, hinner, hchildren⟩ := ihinner hkindsu
    obtain ⟨atoms, hexpands, htrees⟩ := ih hkindsv
    cases n with
    | rule r =>
      obtain ⟨choice, hchoice, hsequence, hname⟩ := exists_choice_of_mem hp
      obtain rfl := Option.some.inj (hlabel.symm.trans hname)
      exact ⟨_, .rule hexpands,
        .rule hchoice (hinner.matches hsequence) hchildren htrees⟩
    | many unit =>
      rcases List.mem_cons.mp hp with rfl | hp
      · cases hlabel
      · obtain rfl := List.mem_singleton.mp hp
        cases hlabel
  | @spliced n p _ _ _ _ _ hp hlabel _ _ ihinner ih =>
    obtain ⟨hkindsu, hkindsv⟩ := List.forall_mem_append.mp hkinds
    obtain ⟨inner, hinner, hchildren⟩ := ihinner hkindsu
    obtain ⟨atoms, hexpands, htrees⟩ := ih hkindsv
    cases n with
    | rule r =>
      obtain ⟨choice, -, -, hname⟩ := exists_choice_of_mem hp
      rw [hlabel] at hname
      cases hname
    | many unit =>
      obtain ⟨n, rfl⟩ := exists_replicate_of_mem hp hinner
      exact ⟨_, .many hexpands, hchildren.append htrees⟩

/-- The grammar of a crate derives from a rule what the rule as it is written derives. -/
theorem derives_iff_derivation {r : RuleName} {word : List Terminal} :
    crateGrammar.Derives [.nonterminal (.rule r)] word ↔ Derivation [.rule r] word := by
  constructor
  · intro h
    obtain ⟨trees, hforest⟩ := h.exists_forest fun t => (⟨t.name, some t.name⟩ : Leaf)
    obtain ⟨atoms, hexpands, htrees⟩ := hforest.derivationTrees (by simp)
    obtain rfl := @Expands.eq_of_symbols [.rule r] _ hexpands
    obtain ⟨word', hderivation, hkinds⟩ := htrees.derivation
    have hnames : (word.map Terminal.name).map some = (word'.map Terminal.name).map some := by
      rw [hforest.leavesAll_eq] at hkinds
      simpa [Function.comp_def] using hkinds
    have hnames := (List.map_inj_right fun _ _ => Option.some.inj).mp hnames
    rwa [Terminal.map_name_injective hnames]
  · exact Derivation.derives

/-- The words of the grammar of a crate are the words that are a crate. -/
theorem generates_iff_isCrate {word : List Terminal} :
    crateGrammar.Generates word ↔ IsCrate word :=
  derives_iff_derivation

end CrateAnalysis
