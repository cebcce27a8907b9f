import SliceLint.Proofs.Spans

set_option autoImplicit false

/-! # Comments among syntax nodes

Comments are nodes wherever they stand. `Node.Commented` relates a tree to the same tree with more
comments in it; the two belong to different texts, so their spans differ, but names and literals
read the same.

Roles and kinds are found among the children whatever comments stand there
(`CommentedAll.find?_rel`), and so is the specifier of a statement. The first argument of a call is
found by its position. A comment in front of it takes its place, and the import is hidden
(`Node.hiddenImport?`). No other import depends on comments: what a node shows and what it hides is
together the same with more comments (`Commented.traded`), and comments only hide. -/

namespace SliceLint

/-! ## Specifiers as texts -/

/-- The text between the quotes of a literal. -/
def Import.unquoted? (text : List Char) : Option String :=
  if Source.byteLength text < 2 then none
  else do
    let (_, inner) ← Source.splitBytes? 1 text
    let (specifier, _) ← Source.splitBytes? (Source.byteLength text - 2) inner
    some (String.ofList specifier)

/-- The specifier at a span depends on the text there alone. -/
theorem Import.specifier_ofSpan? (source : List Char) (start stop : Nat) :
    (ofSpan? source start stop).map Import.specifier
      = (Source.between? source start stop).bind unquoted? := by
  unfold ofSpan? Source.between? unquoted?
  cases Source.splitBytes? start source with
  | none => rfl
  | some before =>
      simp only [Option.bind_eq_bind, Option.bind_some]
      cases Source.splitBytes? (stop - start) before.2 with
      | none => rfl
      | some text =>
          simp only [Option.bind_some]
          split
          · rfl
          · cases Source.splitBytes? 1 text.1 with
            | none => rfl
            | some inner =>
                simp only [Option.bind_some]
                cases Source.splitBytes? (Source.byteLength text.1 - 2) inner.2 <;> rfl

theorem Import.exists_ofSpan?_of_literalAt {source : List Char} {start stop : Nat}
    (h : Source.LiteralAt source start stop) : ∃ i, ofSpan? source start stop = some i := by
  obtain ⟨before, quote, inner, after, rfl, hquote, -, rfl, rfl⟩ := h
  exact ⟨_, ofSpan?_of_literal hquote⟩

namespace Node

/-! ## More comments -/

mutual

/-- A tree of one text, and the same tree with more comments, of another text. -/
inductive Commented (source source' : List Char) : Node → Node → Prop where
  | mk {kind : NodeKind} {role : Option Role} {start stop start' stop' : Nat} {ns ms : List Node}
      (text : (Node.mk kind role start stop ns).isLiteral = true ∨ kind = .identifier →
        Source.between? source start stop = Source.between? source' start' stop')
      (below : CommentedAll source source' ns ms) :
      Commented source source' (.mk kind role start stop ns) (.mk kind role start' stop' ms)

/-- The same for trees side by side, with more comments between them. -/
inductive CommentedAll (source source' : List Char) : List Node → List Node → Prop where
  | nil : CommentedAll source source' [] []
  | cons {n m : Node} {ns ms : List Node} (first : Commented source source' n m)
      (more : CommentedAll source source' ns ms) : CommentedAll source source' (n :: ns) (m :: ms)
  | comment {start stop : Nat} {ns ms : List Node} (more : CommentedAll source source' ns ms) :
      CommentedAll source source' ns (.mk .comment none start stop [] :: ms)

end

variable {source source' : List Char}

theorem Commented.kind_eq {n m : Node} (h : Commented source source' n m) : n.kind = m.kind := by
  cases h
  rfl

theorem Commented.role_eq {n m : Node} (h : Commented source source' n m) : n.role = m.role := by
  cases h
  rfl

theorem Commented.children {n m : Node} (h : Commented source source' n m) :
    CommentedAll source source' n.children m.children := by
  cases h with
  | mk _ below => exact below

/-- What is found among nodes by a property that comments lack is found among more comments. -/
theorem CommentedAll.find?_rel {p : Node → Bool}
    (hp : ∀ {n m : Node}, Commented source source' n m → p n = p m)
    (hcomment : ∀ start stop, p (.mk .comment none start stop []) = false) :
    {ns ms : List Node} → CommentedAll source source' ns ms →
      Option.Rel (Commented source source') (ns.find? p) (ms.find? p)
  | _, _, .nil => .none
  | n :: ns, m :: ms, .cons first more => by
      rw [List.find?_cons, List.find?_cons, ← hp first]
      cases p n with
      | true => exact .some first
      | false => exact more.find?_rel hp hcomment
  | _, _, .comment more => by
      rw [List.find?_cons, hcomment]
      exact more.find?_rel hp hcomment

theorem Commented.child?_rel {n m : Node} (h : Commented source source' n m) (role : Role) :
    Option.Rel (Commented source source') (n.child? role) (m.child? role) :=
  h.children.find?_rel (fun h => by rw [h.role_eq]) fun _ _ => rfl

/-! ## What comments leave alone -/

theorem CommentedAll.any_substitution :
    {ns ms : List Node} → CommentedAll source source' ns ms →
      (ns.any fun c => c.kind = .substitution) = ms.any fun c => c.kind = .substitution
  | _, _, .nil => rfl
  | _, _, .cons first more => by
      rw [List.any_cons, List.any_cons, first.kind_eq, more.any_substitution]
  | _, _, .comment more => by
      rw [List.any_cons, ← more.any_substitution]
      rfl

theorem Commented.isLiteral_eq {n m : Node} (h : Commented source source' n m) :
    n.isLiteral = m.isLiteral := by
  cases h with
  | @mk kind role start stop start' stop' ns ms _ below =>
      cases kind with
      | template => exact congrArg (!·) below.any_substitution
      | _ => rfl

theorem Commented.literal?_eq {n m : Node} (h : Commented source source' n m) :
    (n.literal? source).map Import.specifier = (m.literal? source').map Import.specifier := by
  unfold literal?
  rw [← h.isLiteral_eq]
  by_cases hliteral : n.isLiteral = true
  · rw [if_pos hliteral, if_pos hliteral, Import.specifier_ofSpan?, Import.specifier_ofSpan?]
    cases h with
    | mk text _ => exact congrArg (·.bind Import.unquoted?) (text (Or.inl hliteral))
  · rw [if_neg hliteral, if_neg hliteral]

theorem Commented.isLoader_eq {n m : Node} (h : Commented source source' n m) :
    isLoader source n = isLoader source' m := by
  cases h with
  | @mk kind role start stop start' stop' ns ms text _ =>
      cases kind with
      | identifier =>
          refine decide_eq_decide.2 ?_
          show Source.between? source start stop = _ ↔ Source.between? source' start' stop' = _
          rw [text (Or.inr rfl)]
      | _ => rfl

theorem specifier_bind_eq {o o' : Option Node} (h : Option.Rel (Commented source source') o o')
    {f f' : Node → Option Import}
    (hf : ∀ {n m : Node}, Commented source source' n m →
      (f n).map Import.specifier = (f' m).map Import.specifier) :
    (o.bind f).map Import.specifier = (o'.bind f').map Import.specifier := by
  cases h with
  | none => rfl
  | some hnode => exact hf hnode

theorem Commented.sourceImport?_eq {n m : Node} (h : Commented source source' n m) :
    (n.sourceImport? source).map Import.specifier
      = (m.sourceImport? source').map Import.specifier :=
  specifier_bind_eq (h.child?_rel .source) Commented.literal?_eq

/-! ## Arguments -/

/-- The arguments of a call that loads modules, with the comments among them. -/
def loaderArguments? (source : List Char) (n : Node) : Option (List Node) :=
  if n.kind = .call then
    (n.child? .callee).bind fun callee => (n.child? .arguments).bind fun arguments =>
      if isLoader source callee then some arguments.children else none
  else none

/-- Whether the first of some nodes is a comment. -/
def beginsWithComment (ns : List Node) : Bool :=
  ns.head?.any fun n => n.kind = .comment

/-- The import of the first node that is no comment. -/
def firstLiteral? (source : List Char) (ns : List Node) : Option Import :=
  (ns.find? fun n => n.kind ≠ .comment).bind (literal? source)

/-- The import that a node would stand for, but for a comment in front of its first argument. -/
def hiddenImport? (source : List Char) (n : Node) : Option Import :=
  (n.loaderArguments? source).bind fun arguments =>
    if beginsWithComment arguments then firstLiteral? source arguments else none

theorem literal?_of_comment {n : Node} (h : n.kind = .comment) : n.literal? source = none := by
  simp [literal?, isLiteral, h]

/-- A call that loads modules has a callee that does, and its arguments are the children of one of
its own children. -/
theorem exists_of_loaderArguments? {n : Node} {arguments : List Node}
    (h : n.loaderArguments? source = some arguments) :
    n.kind = .call ∧ ∃ callee node, n.child? .callee = some callee ∧
      n.child? .arguments = some node ∧ isLoader source callee = true ∧
      node.children = arguments := by
  unfold loaderArguments? at h
  split at h
  · next hkind =>
      obtain ⟨callee, hcallee, h⟩ := Option.bind_eq_some_iff.1 h
      obtain ⟨node, hnode, h⟩ := Option.bind_eq_some_iff.1 h
      split at h
      · next hloader => exact ⟨hkind, callee, node, hcallee, hnode, hloader, Option.some.inj h⟩
      · cases h
  · cases h

/-- A call shows the literal in front of all arguments, and a comment in front is none. -/
theorem import?_of_loaderArguments? {n : Node} {arguments : List Node}
    (h : n.loaderArguments? source = some arguments) :
    n.import? source
      = if beginsWithComment arguments then none else firstLiteral? source arguments := by
  obtain ⟨hkind, callee, node, hcallee, hnode, hloader, rfl⟩ := exists_of_loaderArguments? h
  have himport : n.import? source = node.children.head?.bind (literal? source) := by
    simp [import?, hkind, callImport?, hcallee, hnode, hloader]
  rw [himport]
  cases node.children with
  | nil => rfl
  | cons first rest =>
      by_cases hcomment : first.kind = .comment
      · simp [beginsWithComment, hcomment, literal?_of_comment hcomment]
      · simp [beginsWithComment, firstLiteral?, hcomment]

theorem import?_of_loaderArguments?_eq_none {n : Node} (hkind : n.kind = .call)
    (h : n.loaderArguments? source = none) : n.import? source = none := by
  rw [loaderArguments?, if_pos hkind] at h
  simp only [import?, hkind, callImport?, Option.bind_eq_bind]
  cases hcallee : n.child? .callee with
  | none => rfl
  | some callee =>
      cases harguments : n.child? .arguments with
      | none => rfl
      | some arguments =>
          by_cases hloader : isLoader source callee = true
          · simp [hcallee, harguments, hloader] at h
          · simp [hloader]

theorem rel_bind {o o' : Option Node} (h : Option.Rel (Commented source source') o o')
    {f f' : Node → Option (List Node)}
    (hf : ∀ {n m : Node}, Commented source source' n m →
      Option.Rel (CommentedAll source source') (f n) (f' m)) :
    Option.Rel (CommentedAll source source') (o.bind f) (o'.bind f') := by
  cases h with
  | none => exact .none
  | some hnode => exact hf hnode

/-- More comments among the arguments leave the calls that load modules as they are. -/
theorem Commented.loaderArguments?_rel {n m : Node} (h : Commented source source' n m) :
    Option.Rel (CommentedAll source source') (n.loaderArguments? source)
      (m.loaderArguments? source') := by
  unfold loaderArguments?
  rw [← h.kind_eq]
  split
  · refine rel_bind (h.child?_rel .callee) fun hcallee => ?_
    refine rel_bind (h.child?_rel .arguments) fun harguments => ?_
    rw [← hcallee.isLoader_eq]
    split
    · exact .some harguments.children
    · exact .none
  · exact .none

theorem CommentedAll.beginsWithComment {ns ms : List Node} (h : CommentedAll source source' ns ms)
    (hfirst : beginsWithComment ns = true) : Node.beginsWithComment ms = true := by
  cases h with
  | nil => exact hfirst
  | cons first _ => simpa [Node.beginsWithComment, ← first.kind_eq] using hfirst
  | comment => rfl

theorem CommentedAll.firstLiteral?_eq {ns ms : List Node} (h : CommentedAll source source' ns ms) :
    (firstLiteral? source ns).map Import.specifier
      = (firstLiteral? source' ms).map Import.specifier :=
  specifier_bind_eq (h.find?_rel (fun h => by rw [h.kind_eq]) fun _ _ => rfl) Commented.literal?_eq

/-! ## What is shown and what is hidden -/

/-- Some specifiers that are shown and some that are hidden, and the same with more comments: what
is no longer shown is hidden. -/
structure Traded (shown hidden shown' hidden' : List String) : Prop where
  shown_sublist : shown'.Sublist shown
  hidden_sublist : hidden.Sublist hidden'
  length_eq : shown.length + hidden.length = shown'.length + hidden'.length

theorem Traded.refl (shown hidden : List String) : Traded shown hidden shown hidden :=
  ⟨List.Sublist.refl _, List.Sublist.refl _, rfl⟩

theorem Traded.append {s h s' h' t k t' k' : List String} (hs : Traded s h s' h')
    (ht : Traded t k t' k') : Traded (s ++ t) (h ++ k) (s' ++ t') (h' ++ k') where
  shown_sublist := hs.shown_sublist.append ht.shown_sublist
  hidden_sublist := hs.hidden_sublist.append ht.hidden_sublist
  length_eq := by
    have hfirst := hs.length_eq
    have hsecond := ht.length_eq
    simp only [List.length_append]
    omega

theorem Traded.shown_eq_iff {s h s' h' : List String} (ht : Traded s h s' h') :
    s' = s ↔ h' = h := by
  have hlength := ht.length_eq
  constructor
  · rintro rfl
    exact (ht.hidden_sublist.eq_of_length (by omega)).symm
  · rintro rfl
    exact ht.shown_sublist.eq_of_length (by omega)

/-- The specifiers that some nodes stand for. -/
def shownBy (source : List Char) (ns : List Node) : List String :=
  ns.filterMap fun n => (n.import? source).map Import.specifier

/-- The specifiers that some nodes hide. -/
def hiddenBy (source : List Char) (ns : List Node) : List String :=
  ns.filterMap fun n => (n.hiddenImport? source).map Import.specifier

theorem shownBy_append (ns ms : List Node) :
    shownBy source (ns ++ ms) = shownBy source ns ++ shownBy source ms :=
  List.filterMap_append

theorem hiddenBy_append (ns ms : List Node) :
    hiddenBy source (ns ++ ms) = hiddenBy source ns ++ hiddenBy source ms :=
  List.filterMap_append

theorem shownBy_singleton (n : Node) :
    shownBy source [n] = ((n.import? source).map Import.specifier).toList := by
  rw [shownBy, List.filterMap_cons]
  cases (n.import? source).map Import.specifier <;> rfl

theorem hiddenBy_singleton (n : Node) :
    hiddenBy source [n] = ((n.hiddenImport? source).map Import.specifier).toList := by
  rw [hiddenBy, List.filterMap_cons]
  cases (n.hiddenImport? source).map Import.specifier <;> rfl

/-- Nodes other than calls that load modules find their specifiers by roles and kinds. -/
theorem Commented.import?_eq {n m : Node} (h : Commented source source' n m)
    (hn : n.loaderArguments? source = none) (hm : m.loaderArguments? source' = none) :
    (n.import? source).map Import.specifier = (m.import? source').map Import.specifier := by
  by_cases hcall : n.kind = .call
  · have hnone := import?_of_loaderArguments?_eq_none (h.kind_eq ▸ hcall) hm
    rw [import?_of_loaderArguments?_eq_none hcall hn, hnone]
  · have hclause := h.children.find?_rel (p := fun c => c.kind = .requireClause)
      (fun h => by rw [h.kind_eq]) fun _ _ => rfl
    unfold import?
    rw [← h.kind_eq]
    split
    · rw [Option.map_or, Option.map_or, h.sourceImport?_eq,
        specifier_bind_eq hclause Commented.sourceImport?_eq]
    · exact h.sourceImport?_eq
    · exact absurd ‹_› hcall
    · rfl

/-- The step: one node, and the same node with more comments below it. -/
theorem Commented.traded {n m : Node} (h : Commented source source' n m) :
    Traded (shownBy source [n]) (hiddenBy source [n]) (shownBy source' [m])
      (hiddenBy source' [m]) := by
  simp only [shownBy_singleton, hiddenBy_singleton]
  have hrel := h.loaderArguments?_rel
  cases hn : n.loaderArguments? source with
  | none =>
      cases hm : m.loaderArguments? source' with
      | none =>
          rw [h.import?_eq hn hm, hiddenImport?, hn, hiddenImport?, hm]
          exact Traded.refl _ _
      | some ms =>
          rw [hn, hm] at hrel
          cases hrel
  | some ns =>
      cases hm : m.loaderArguments? source' with
      | none =>
          rw [hn, hm] at hrel
          cases hrel
      | some ms =>
          rw [hn, hm] at hrel
          have hall := Option.rel_some_some.1 hrel
          rw [import?_of_loaderArguments? hn, import?_of_loaderArguments? hm, hiddenImport?, hn,
            hiddenImport?, hm]
          simp only [Option.bind_some]
          by_cases hfirst : Node.beginsWithComment ns = true
          · have hfirst' := hall.beginsWithComment hfirst
            rw [if_pos hfirst, if_pos hfirst, if_pos hfirst', if_pos hfirst', hall.firstLiteral?_eq]
            exact Traded.refl _ _
          · rw [if_neg hfirst, if_neg hfirst, hall.firstLiteral?_eq]
            split
            · -- the comment in front is a new one
              exact ⟨List.nil_sublist _, List.nil_sublist _, Nat.add_comm _ _⟩
            · exact Traded.refl _ _

/-! ## Whole trees -/

theorem preorder_comment (start stop : Nat) :
    (Node.mk .comment none start stop []).preorder = [.mk .comment none start stop []] := by
  rw [preorder, preorderAll]

mutual

/-- The run: a whole tree, and the same tree with more comments. -/
theorem Commented.traded_preorder : {n m : Node} → Commented source source' n m →
    Traded (shownBy source n.preorder) (hiddenBy source n.preorder) (shownBy source' m.preorder)
      (hiddenBy source' m.preorder)
  | .mk .., .mk .., .mk text below => by
      rw [preorder, preorder, ← List.singleton_append, ← List.singleton_append (l := preorderAll _)]
      simp only [shownBy_append, hiddenBy_append]
      exact (Commented.mk text below).traded.append below.traded_preorderAll

theorem CommentedAll.traded_preorderAll : {ns ms : List Node} → CommentedAll source source' ns ms →
    Traded (shownBy source (preorderAll ns)) (hiddenBy source (preorderAll ns))
      (shownBy source' (preorderAll ms)) (hiddenBy source' (preorderAll ms))
  | _, _, .nil => Traded.refl _ _
  | _, _, .cons first more => by
      simp only [preorderAll, shownBy_append, hiddenBy_append]
      exact first.traded_preorder.append more.traded_preorderAll
  | _, _, .comment more => by
      rw [preorderAll, preorder_comment]
      exact more.traded_preorderAll

end

theorem specifiers_imports (source : List Char) (tree : Node) :
    (tree.imports source).map Import.specifier = shownBy source tree.preorder := by
  rw [imports, visit_singleton, shownBy, List.map_filterMap]

/-- Behind comments, the literal of an argument is hidden; without them, it is shown. -/
theorem import?_of_comments {n first : Node} {comments rest : List Node}
    (h : n.loaderArguments? source = some (comments ++ first :: rest))
    (hcomments : ∀ c ∈ comments, c.kind = .comment) (hfirst : first.isLiteral = true) :
    (comments = [] → n.import? source = Import.ofSpan? source first.start first.stop) ∧
      (comments ≠ [] → n.import? source = none ∧
        n.hiddenImport? source = Import.ofSpan? source first.start first.stop) := by
  have hkind : first.kind ≠ .comment := by
    intro hkind
    simp [isLiteral, hkind] at hfirst
  have hfound : firstLiteral? source (comments ++ first :: rest)
      = Import.ofSpan? source first.start first.stop := by
    have hnone : comments.find? (fun n => n.kind ≠ .comment) = none :=
      List.find?_eq_none.2 fun c hc => by simp [hcomments c hc]
    rw [firstLiteral?, List.find?_append, hnone, Option.none_or,
      List.find?_cons_of_pos (by simpa using hkind), Option.bind_some, literal?, if_pos hfirst]
  rw [import?_of_loaderArguments? h, hiddenImport?, h, Option.bind_some, hfound]
  cases comments with
  | nil => simp [beginsWithComment, hkind]
  | cons c comments => simp [beginsWithComment, hcomments c List.mem_cons_self]

/-- More comments add no specifier and change no order. They leave the specifiers of a source as
they are exactly if they hide no more of them. Where specifiers stand where they say, every call that
loads modules and has a literal as its first argument is an import, unless comments stand in front of
the literal; then it is hidden. -/
theorem specifiers_commented {tree tree' : Node} (h : Commented source source' tree tree') :
    ((tree'.imports source').map Import.specifier).Sublist
        ((tree.imports source).map Import.specifier) ∧
      ((tree'.imports source').map Import.specifier = (tree.imports source).map Import.specifier ↔
        hiddenBy source' tree'.preorder = hiddenBy source tree.preorder) ∧
      (tree'.SpecifiersPlaced source' →
        ∀ n ∈ tree'.preorder, ∀ comments first rest,
          n.loaderArguments? source' = some (comments ++ first :: rest) →
          (∀ c ∈ comments, c.kind = .comment) → first.isLiteral = true →
          ∃ i, Import.ofSpan? source' first.start first.stop = some i ∧
            (comments = [] → n.import? source' = some i ∧ i ∈ tree'.imports source') ∧
            (comments ≠ [] → n.import? source' = none ∧
              i.specifier ∈ hiddenBy source' tree'.preorder)) := by
  have htraded := h.traded_preorder
  rw [specifiers_imports, specifiers_imports]
  refine ⟨htraded.shown_sublist, htraded.shown_eq_iff, ?_⟩
  intro hplaced n hn comments first rest harguments hcomments hfirst
  have hliteral : Source.LiteralAt source' first.start first.stop := by
    obtain ⟨-, -, node, -, hnode, -, hchildren⟩ := exists_of_loaderArguments? harguments
    obtain ⟨hchild, hrole⟩ := of_child? hnode
    have hargument : first ∈ node.children := by simp [hchildren]
    exact hplaced node (mem_preorder_of_mem_children hn hchild) first
      ⟨hargument, hfirst, Or.inr hrole⟩
  obtain ⟨i, hspan⟩ := Import.exists_ofSpan?_of_literalAt hliteral
  obtain ⟨hshown, hhidden⟩ := import?_of_comments harguments hcomments hfirst
  rw [hspan] at hshown hhidden
  refine ⟨i, hspan, fun hnil => ⟨hshown hnil, ?_⟩, fun hne => ⟨(hhidden hne).1, ?_⟩⟩
  · rw [imports, visit_singleton]
    exact List.mem_filterMap.2 ⟨n, hn, hshown hnil⟩
  · exact List.mem_filterMap.2 ⟨n, hn, by rw [(hhidden hne).2]; rfl⟩

mutual

/-- Whether two trees are the same. -/
def decEq : (n m : Node) → Decidable (n = m)
  | .mk kind role start stop ns, .mk kind' role' start' stop' ms =>
    match decEqAll ns ms with
    | isTrue h =>
      decidable_of_iff (kind = kind' ∧ role = role' ∧ start = start' ∧ stop = stop') (by simp [h])
    | isFalse h => isFalse (by simp [h])

/-- Whether two lists of trees are the same. -/
def decEqAll : (ns ms : List Node) → Decidable (ns = ms)
  | [], [] => isTrue rfl
  | [], _ :: _ => isFalse (by simp)
  | _ :: _, [] => isFalse (by simp)
  | n :: ns, m :: ms =>
    match decEq n m, decEqAll ns ms with
    | isTrue h, isTrue hs => isTrue (by rw [h, hs])
    | isFalse h, _ => isFalse (by simp [h])
    | _, isFalse hs => isFalse (by simp [hs])

end

instance : DecidableEq Node := decEq

/-- Two calls that load modules. -/
def loaders : List Char :=
  "require(\"./a\"); import(\"./b\")".toList

/-- The same calls with a comment behind the first literal, and one in front of the second. -/
def commentedLoaders : List Char :=
  "require(\"./a\" /* a */); import(/* b */ \"./b\")".toList

/-- The tree of `loaders`. -/
def loadersTree : Node :=
  .mk .program none 0 29
    [.mk .call none 0 14
      [.mk .identifier (some .callee) 0 7 [],
        .mk .arguments (some .arguments) 7 14 [.mk .string none 8 13 []]],
      .mk .call none 16 29
        [.mk .importKeyword (some .callee) 16 22 [],
          .mk .arguments (some .arguments) 22 29 [.mk .string none 23 28 []]]]

/-- The first call of `commentedLoaders`. -/
def commentBehind : Node :=
  .mk .call none 0 22
    [.mk .identifier (some .callee) 0 7 [],
      .mk .arguments (some .arguments) 7 22 [.mk .string none 8 13 [], .mk .comment none 14 21 []]]

/-- The second call of `commentedLoaders`. -/
def commentInFront : Node :=
  .mk .call none 24 45
    [.mk .importKeyword (some .callee) 24 30 [],
      .mk .arguments (some .arguments) 30 45 [.mk .comment none 31 38 [], .mk .string none 39 44 []]]

/-- The tree of `commentedLoaders`. -/
def commentedLoadersTree : Node :=
  .mk .program none 0 45 [commentBehind, commentInFront]

/-- Both calls keep their places among the specifiers, but the second one is hidden. -/
theorem specifiers_commented_loaders :
    Source.parse? false commentedLoaders = some commentedLoadersTree ∧
      Commented loaders commentedLoaders loadersTree commentedLoadersTree ∧
      ((commentedLoadersTree.imports commentedLoaders).map Import.specifier).Sublist
        ((loadersTree.imports loaders).map Import.specifier) ∧
      (commentedLoadersTree.imports commentedLoaders).map Import.specifier
        ≠ (loadersTree.imports loaders).map Import.specifier ∧
      (∃ i ∈ commentedLoadersTree.imports commentedLoaders,
        commentBehind.import? commentedLoaders = some i) ∧
      commentInFront.import? commentedLoaders = none ∧
      hiddenBy commentedLoaders commentedLoadersTree.preorder = ["./b"] := by
  have hparse : Source.parse? false commentedLoaders = some commentedLoadersTree := by
    decide +kernel
  have hcommented : Commented loaders commentedLoaders loadersTree commentedLoadersTree :=
    .mk (by decide) (.cons
      (.mk (by decide) (.cons (.mk (fun _ => by decide +kernel) .nil) (.cons (.mk (by decide)
        (.cons (.mk (fun _ => by decide +kernel) .nil) (.comment .nil))) .nil))) (.cons
      (.mk (by decide) (.cons (.mk (by decide) .nil) (.cons (.mk (by decide)
        (.comment (.cons (.mk (fun _ => by decide +kernel) .nil) .nil))) .nil))) .nil))
  have hplaced : commentedLoadersTree.SpecifiersPlaced commentedLoaders :=
    (Source.placed_of_parse? hparse).specifiersPlaced
  have hplain : hiddenBy loaders loadersTree.preorder = [] := by decide +kernel
  have hhidden : hiddenBy commentedLoaders commentedLoadersTree.preorder = ["./b"] := by
    decide +kernel
  have hbehind : commentBehind.loaderArguments? commentedLoaders
      = some ([] ++ .mk .string none 8 13 [] :: [.mk .comment none 14 21 []]) := by decide +kernel
  have hfront : commentInFront.loaderArguments? commentedLoaders
      = some ([.mk .comment none 31 38 []] ++ .mk .string none 39 44 [] :: []) := by decide +kernel
  obtain ⟨hsublist, hiff, hcalls⟩ := specifiers_commented hcommented
  have hnodes : commentBehind ∈ commentedLoadersTree.preorder ∧
      commentInFront ∈ commentedLoadersTree.preorder := by
    rw [preorder_eq, commentedLoadersTree, children, preorderAll, preorderAll, preorder_eq,
      preorder_eq]
    simp
  obtain ⟨i, -, hshown, -⟩ :=
    hcalls hplaced commentBehind hnodes.1 _ _ _ hbehind (List.forall_mem_nil _) rfl
  obtain ⟨_, -, -, hnone⟩ :=
    hcalls hplaced commentInFront hnodes.2 _ _ _ hfront (List.forall_mem_singleton.2 rfl) rfl
  refine ⟨hparse, hcommented, hsublist, fun heq => ?_, ⟨i, (hshown rfl).2, (hshown rfl).1⟩,
    (hnone (by simp)).1, hhidden⟩
  have hsame := hiff.1 heq
  rw [hplain, hhidden] at hsame
  cases hsame

/-- A comment in front of the module that a call names hides the import. -/
theorem imports_hidden_by_comment :
    ∃ tree tree', Source.parse? false "import(\"./a\")".toList = some tree ∧
      Source.parse? false "import(/* c */ \"./a\")".toList = some tree' ∧
      Commented "import(\"./a\")".toList "import(/* c */ \"./a\")".toList tree tree' ∧
      (tree.imports "import(\"./a\")".toList).map Import.specifier = ["./a"] ∧
      tree'.imports "import(/* c */ \"./a\")".toList = [] := by
  refine ⟨.mk .program none 0 13 [.mk .call none 0 13 [.mk .importKeyword (some .callee) 0 6 [],
      .mk .arguments (some .arguments) 6 13 [.mk .string none 7 12 []]]],
    .mk .program none 0 21 [.mk .call none 0 21 [.mk .importKeyword (some .callee) 0 6 [],
      .mk .arguments (some .arguments) 6 21
        [.mk .comment none 7 14 [], .mk .string none 15 20 []]]], by decide +kernel, by decide +kernel, ?_, ?_,
    ?_⟩
  · exact .mk (by decide) (.cons (.mk (by decide) (.cons (.mk (by decide) .nil) (.cons
      (.mk (by decide) (.comment (.cons (.mk (fun _ => by decide +kernel) .nil) .nil))) .nil)))
      .nil)
  · decide +kernel
  · decide +kernel

end Node

end SliceLint
