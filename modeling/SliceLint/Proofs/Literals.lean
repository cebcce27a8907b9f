import SliceLint.Proofs.Text
import SliceLint.Source.Import
import SliceLint.Source.Piece

set_option autoImplicit false

/-! # Where literals stand

A literal is a quote, a text that does not end it, and the same quote. A tree is placed if each of
its strings, and each of its templates without substitutions, spans one literal (`Node.Placed`).

Statements and calls are recognized in a row of pieces that were read before. This moves nodes about
and gives them roles and parents, so what was placed stays placed (`Piece.placed_groupNodes`). -/

namespace SliceLint

namespace Source

/-! ## Literals -/

/-- The characters that literals are written between. -/
def quotes : List Char := ['\x22', '\x27', '\x60']

/-- A span that holds one literal: a quote, a text that does not end it, and the same quote. -/
def LiteralAt (source : List Char) (start stop : Nat) : Prop :=
  ∃ before quote inner after, source = before ++ quote :: (inner ++ quote :: after) ∧
    quote ∈ quotes ∧ Text.Unquoted quote inner ∧ start = byteLength before ∧
    stop = start + byteLength inner + 2

end Source

/-! ## Nodes -/

/-- A tree all of whose literals stand where they say. -/
inductive Node.Placed (source : List Char) : Node → Prop where
  | mk {kind : NodeKind} {role : Option Role} {start stop : Nat} {children : List Node}
      (literal : (Node.mk kind role start stop children).isLiteral = true →
        Source.LiteralAt source start stop)
      (below : ∀ c ∈ children, Node.Placed source c) :
      Node.Placed source (.mk kind role start stop children)

namespace Node

variable {source : List Char} {n : Node}

theorem Placed.literalAt (h : n.Placed source) (hliteral : n.isLiteral = true) :
    Source.LiteralAt source n.start n.stop := by
  cases h with
  | mk literal below => exact literal hliteral

theorem Placed.of_mem_children (h : n.Placed source) {c : Node} (hc : c ∈ n.children) :
    c.Placed source := by
  cases h with
  | mk literal below => exact below c hc

theorem Placed.withRole (h : n.Placed source) (role : Role) : (n.withRole role).Placed source := by
  cases h with
  | mk literal below => exact .mk literal below

theorem isLiteral_template_iff {role : Option Role} {start stop : Nat} {children : List Node} :
    (Node.mk .template role start stop children).isLiteral = true ↔
      ∀ c ∈ children, c.kind ≠ .substitution := by
  show (!children.any fun c => decide (c.kind = .substitution)) = true ↔ _
  simp

/-- Nodes that are no literals may stand anywhere. -/
theorem placed_of_kind {kind : NodeKind} (hstring : kind ≠ .string) (htemplate : kind ≠ .template)
    (role : Option Role) (start stop : Nat) {children : List Node}
    (below : ∀ c ∈ children, c.Placed source) :
    (Node.mk kind role start stop children).Placed source := by
  refine .mk ?_ below
  cases kind <;> simp_all [isLiteral, Node.kind]

end Node

/-! ## Pieces -/

namespace Piece

variable {source : List Char}

/-- A piece all of whose literals stand where they say. -/
def Placed (source : List Char) : Piece → Prop
  | leaf node => node.Placed source
  | group _ _ _ inside => ∀ n ∈ inside, n.Placed source
  | _ => True

theorem placed_of_node? {p : Piece} (h : p.Placed source) {n : Node} (hn : p.node? = some n) :
    n.Placed source := by
  cases p with
  | word text start stop =>
      obtain rfl := Option.some.inj hn
      exact Node.placed_of_kind (by decide) (by decide) _ _ _ (by simp)
  | mark text => cases hn
  | leaf node =>
      obtain rfl := Option.some.inj hn
      exact h
  | group opening start stop inside =>
      obtain rfl := Option.some.inj hn
      exact Node.placed_of_kind (by decide) (by decide) _ _ _ h

theorem placed_nodes {ps : List Piece} (h : ∀ p ∈ ps, p.Placed source) :
    ∀ n ∈ nodes ps, n.Placed source := by
  intro n hn
  obtain ⟨p, hp, hnode⟩ := List.mem_filterMap.1 hn
  exact placed_of_node? (h p hp) hnode

theorem eq_append_of_next? {ps comments rest : List Piece} {p : Piece}
    (h : next? ps = some (comments, p, rest)) : ps = comments ++ p :: rest := by
  unfold next? at h
  split at h
  · cases h
  · next q tail hdrop =>
      simp only [Option.some.injEq, Prod.mk.injEq] at h
      obtain ⟨rfl, rfl, rfl⟩ := h
      rw [← hdrop, List.takeWhile_append_dropWhile]

theorem placed_of_next? {ps comments rest : List Piece} {p : Piece}
    (h : ∀ p ∈ ps, p.Placed source) (hnext : next? ps = some (comments, p, rest)) :
    (∀ p ∈ comments, p.Placed source) ∧ p.Placed source ∧ ∀ p ∈ rest, p.Placed source := by
  rw [eq_append_of_next? hnext] at h
  simpa only [List.forall_mem_append, List.forall_mem_cons] using h

theorem exists_of_typeArguments? {depth : Nat} {ps inside rest : List Piece}
    (h : typeArguments? depth ps = some (inside, rest)) : ∃ p, ps = inside ++ p :: rest := by
  induction ps generalizing depth inside rest with
  | nil => cases h
  | cons p ps ih =>
      -- All cases but the last closing bracket keep the piece and go on.
      have hkeep : ∀ depth, (typeArguments? depth ps).map (fun r => (p :: r.1, r.2))
          = some (inside, rest) → ∃ q, p :: ps = inside ++ q :: rest := by
        intro depth hmap
        obtain ⟨r, hr, heq⟩ := Option.map_eq_some_iff.1 hmap
        simp only [Prod.mk.injEq] at heq
        obtain ⟨rfl, rfl⟩ := heq
        obtain ⟨q, hq⟩ := ih hr
        exact ⟨q, by rw [hq, List.cons_append]⟩
      unfold typeArguments? at h
      split at h
      · exact hkeep _ h
      · split at h
        · split at h
          · simp only [Option.some.injEq, Prod.mk.injEq] at h
            obtain ⟨rfl, rfl⟩ := h
            exact ⟨p, rfl⟩
          · exact hkeep _ h
        · split at h
          · cases h
          · exact hkeep _ h

theorem placed_afterOptionalMark {ps : List Piece} (h : ∀ p ∈ ps, p.Placed source) :
    (∀ p ∈ (afterOptionalMark ps).1, p.Placed source) ∧
      ∀ p ∈ (afterOptionalMark ps).2, p.Placed source := by
  unfold afterOptionalMark
  split
  · next comments p rest hnext =>
      obtain ⟨hcomments, -, hrest⟩ := placed_of_next? h hnext
      split
      · exact ⟨hcomments, hrest⟩
      · exact ⟨by simp, h⟩
  · exact ⟨by simp, h⟩

theorem placed_beforeArguments {ps : List Piece} (h : ∀ p ∈ ps, p.Placed source) :
    (∀ p ∈ (beforeArguments ps).1, p.Placed source) ∧
      ∀ p ∈ (beforeArguments ps).2, p.Placed source := by
  have hmark := placed_afterOptionalMark h
  unfold beforeArguments
  simp only
  split
  · next comments p rest hnext =>
      obtain ⟨hcomments, -, hrest⟩ := placed_of_next? hmark.2 hnext
      split
      · split
        · next inside tail htype =>
            obtain ⟨q, rfl⟩ := exists_of_typeArguments? htype
            simp only [List.forall_mem_append, List.forall_mem_cons] at hrest ⊢
            exact ⟨⟨⟨hmark.1, hcomments⟩, hrest.1⟩, hrest.2.2⟩
        · exact hmark
      · exact hmark
  · exact hmark

/-! ## Recognized nodes -/

theorem placed_of_call? {build : List Piece → List Piece}
    (hbuild : ∀ ps, (∀ p ∈ ps, p.Placed source) → ∀ p ∈ build ps, p.Placed source)
    {callee : Node} (hcallee : callee.Placed source) {ps : List Piece}
    (h : ∀ p ∈ ps, p.Placed source) {n : Node} {rest : List Piece}
    (hcall : call? build callee ps = some (n, rest)) :
    n.Placed source ∧ ∀ p ∈ rest, p.Placed source := by
  unfold call? at hcall
  obtain ⟨hbetween, hafter⟩ := placed_beforeArguments h
  simp only at hcall
  split at hcall
  · next comments start stop inside tail hnext =>
      obtain ⟨hcomments, hinside, htail⟩ := placed_of_next? hafter hnext
      simp only [Option.some.injEq, Prod.mk.injEq] at hcall
      obtain ⟨rfl, rfl⟩ := hcall
      refine ⟨Node.placed_of_kind (by decide) (by decide) _ _ _ ?_, htail⟩
      simp only [List.forall_mem_append, List.forall_mem_cons]
      exact ⟨hcallee.withRole _, ⟨placed_nodes (hbuild _ hbetween), placed_nodes hcomments⟩,
        Node.placed_of_kind (by decide) (by decide) _ _ _ hinside, by simp⟩
  · cases hcall

/-- The nodes and the remaining pieces that a part of a statement is read into. -/
def ClausePlaced (source : List Char) (r : List Node × List Piece) : Prop :=
  (∀ n ∈ r.1, n.Placed source) ∧ ∀ p ∈ r.2, p.Placed source

theorem ClausePlaced.append {r : List Node × List Piece} (h : ClausePlaced source r)
    {ns : List Node} (hns : ∀ n ∈ ns, n.Placed source) : ClausePlaced source (ns ++ r.1, r.2) :=
  ⟨List.forall_mem_append.2 ⟨hns, h.1⟩, h.2⟩

theorem placed_toList_node? {p : Piece} (h : p.Placed source) :
    ∀ n ∈ p.node?.toList, n.Placed source := by
  intro n hn
  exact placed_of_node? h (Option.mem_toList.1 hn)

theorem clausePlaced_of_followingString? {ps comments rest : List Piece} {s : Node}
    (h : ∀ p ∈ ps, p.Placed source) (hstring : followingString? ps = some (comments, s, rest)) :
    ClausePlaced source (nodes comments ++ [s.withRole .source], rest) := by
  unfold followingString? at hstring
  split at hstring
  · next comments' p rest' hnext =>
      obtain ⟨s', hs', heq⟩ := Option.map_eq_some_iff.1 hstring
      simp only [Prod.mk.injEq] at heq
      obtain ⟨rfl, rfl, rfl⟩ := heq
      obtain ⟨hcomments, hp, hrest⟩ := placed_of_next? h hnext
      have hplaced : s'.Placed source := by
        unfold string? at hs'
        split at hs'
        · split at hs'
          · obtain rfl := Option.some.inj hs'
            exact hp
          · cases hs'
        · cases hs'
      refine ⟨List.forall_mem_append.2 ⟨placed_nodes hcomments, ?_⟩, hrest⟩
      simpa using hplaced.withRole _
  · cases hstring

/-- The string behind a word, which is looked for only behind the word `from`. -/
theorem clausePlaced_of_from {c : Prop} [Decidable c] {ps comments rest : List Piece} {s : Node}
    (h : ∀ p ∈ ps, p.Placed source)
    (hstring : (if c then followingString? ps else none) = some (comments, s, rest)) :
    ClausePlaced source (nodes comments ++ [s.withRole .source], rest) := by
  split at hstring
  · exact clausePlaced_of_followingString? h hstring
  · cases hstring

/-- A statement is placed if its clause is, whichever of the two kinds it has. -/
theorem placed_of_map_clause {kind : NodeKind} (hstring : kind ≠ .string)
    (htemplate : kind ≠ .template) {start : Nat} {found : Option (List Node × List Piece)}
    (hclause : ∀ r, found = some r → ClausePlaced source r) {n : Node} {rest : List Piece}
    (hfound : (found.map fun r =>
      (Node.mk kind none start ((r.1.getLast?.map Node.stop).getD start) r.1, r.2))
        = some (n, rest)) :
    n.Placed source ∧ ∀ p ∈ rest, p.Placed source := by
  obtain ⟨r, hr, heq⟩ := Option.map_eq_some_iff.1 hfound
  simp only [Prod.mk.injEq] at heq
  obtain ⟨rfl, rfl⟩ := heq
  exact ⟨Node.placed_of_kind hstring htemplate _ _ _ (hclause r hr).1, (hclause r hr).2⟩

theorem placed_of_requireClause? {ps rest : List Piece} {n : Node}
    (h : ∀ p ∈ ps, p.Placed source) (hclause : requireClause? ps = some (n, rest)) :
    n.Placed source ∧ ∀ p ∈ rest, p.Placed source := by
  unfold requireClause? at hclause
  split at hclause
  · next hnext =>
      obtain ⟨-, -, hafter⟩ := placed_of_next? h hnext
      split at hclause
      · next hnext' =>
          obtain ⟨-, hinside, hrest⟩ := placed_of_next? hafter hnext'
          split at hclause
          · split at hclause
            · simp only [Option.some.injEq, Prod.mk.injEq] at hclause
              obtain ⟨rfl, rfl⟩ := hclause
              refine ⟨Node.placed_of_kind (by decide) (by decide) _ _ _ ?_, hrest⟩
              intro m hm
              obtain ⟨n, hn, rfl⟩ := List.mem_map.1 hm
              have hplaced : n.Placed source := hinside n hn
              split
              · exact hplaced
              · exact hplaced.withRole _
            · cases hclause
          · cases hclause
      · cases hclause
  · cases hclause

theorem clausePlaced_of_importClause? {named : Bool} {ps : List Piece}
    (h : ∀ p ∈ ps, p.Placed source) {r : List Node × List Piece}
    (hclause : importClause? named ps = some r) : ClausePlaced source r := by
  induction ps generalizing named r with
  | nil => cases hclause
  | cons p ps ih =>
      rw [List.forall_mem_cons] at h
      have hkeep : ∀ named, (importClause? named ps).map (fun r => (p.node?.toList ++ r.1, r.2))
          = some r → ClausePlaced source r := by
        intro named hmap
        obtain ⟨r', hr', rfl⟩ := Option.map_eq_some_iff.1 hmap
        exact (ih h.2 hr').append (placed_toList_node? h.1)
      unfold importClause? at hclause
      split at hclause
      · split at hclause
        · next hstring =>
            obtain rfl := Option.some.inj hclause
            exact clausePlaced_of_from h.2 hstring
        · exact hkeep _ hclause
      · exact hkeep _ hclause
      · exact ih h.2 hclause
      · exact ih h.2 hclause
      · split at hclause
        · obtain ⟨r', hr', rfl⟩ := Option.map_eq_some_iff.1 hclause
          have hrequire := placed_of_requireClause? h.2 hr'
          exact ⟨by simpa using hrequire.1, hrequire.2⟩
        · cases hclause
      · split at hclause
        · exact hkeep _ hclause
        · cases hclause

theorem placed_of_importStatement? {start : Nat} {ps rest : List Piece} {n : Node}
    (h : ∀ p ∈ ps, p.Placed source) (hfound : importStatement? start ps = some (n, rest)) :
    n.Placed source ∧ ∀ p ∈ rest, p.Placed source := by
  refine placed_of_map_clause (by decide) (by decide) (fun r hr => ?_) hfound
  split at hr
  · next hstring =>
      obtain rfl := Option.some.inj hr
      exact clausePlaced_of_followingString? h hstring
  · exact clausePlaced_of_importClause? h hr

theorem clausePlaced_of_exportClause? {ps : List Piece} (h : ∀ p ∈ ps, p.Placed source)
    {r : List Node × List Piece} (hclause : exportClause? ps = some r) : ClausePlaced source r := by
  induction ps generalizing r with
  | nil => cases hclause
  | cons p ps ih =>
      rw [List.forall_mem_cons] at h
      unfold exportClause? at hclause
      split at hclause
      · split at hclause
        · next hstring =>
            obtain rfl := Option.some.inj hclause
            exact clausePlaced_of_from h.2 hstring
        · obtain ⟨r', hr', rfl⟩ := Option.map_eq_some_iff.1 hclause
          exact (ih h.2 hr').append (placed_toList_node? h.1)
      · next node =>
          split at hclause
          · obtain ⟨r', hr', rfl⟩ := Option.map_eq_some_iff.1 hclause
            have hnode : ∀ n ∈ [node], n.Placed source := List.forall_mem_singleton.2 h.1
            exact (ih h.2 hr').append hnode
          · cases hclause
      · cases hclause

theorem clausePlaced_of_exportedFrom? {ps : List Piece} (h : ∀ p ∈ ps, p.Placed source)
    {r : List Node × List Piece} (hclause : exportedFrom? ps = some r) : ClausePlaced source r := by
  unfold exportedFrom? at hclause
  split at hclause
  · next hnext =>
      obtain ⟨hcomments, -, hrest⟩ := placed_of_next? h hnext
      obtain ⟨r', hr', rfl⟩ := Option.map_eq_some_iff.1 hclause
      exact (clausePlaced_of_exportClause? hrest hr').append (placed_nodes hcomments)
  · next start stop inside _ hnext =>
      obtain ⟨hcomments, hinside, hrest⟩ := placed_of_next? h hnext
      split at hclause
      · next hnext' =>
          obtain ⟨hmore, -, hrest'⟩ := placed_of_next? hrest hnext'
          obtain ⟨⟨comments, s, tail⟩, hstring, rfl⟩ := Option.map_eq_some_iff.1 hclause
          have hspecifier := clausePlaced_of_followingString? hrest' hstring
          have hbraces : (Node.mk .other none start stop inside).Placed source :=
            Node.placed_of_kind (by decide) (by decide) _ _ _ hinside
          simp only [ClausePlaced, List.forall_mem_append, List.forall_mem_singleton]
            at hspecifier ⊢
          exact ⟨⟨⟨⟨⟨placed_nodes hcomments, hbraces⟩, placed_nodes hmore⟩, hspecifier.1.1⟩,
            hspecifier.1.2⟩, hspecifier.2⟩
      · cases hclause
  · cases hclause

theorem placed_of_exportStatement? {start : Nat} {ps rest : List Piece} {n : Node}
    (h : ∀ p ∈ ps, p.Placed source) (hfound : exportStatement? start ps = some (n, rest)) :
    n.Placed source ∧ ∀ p ∈ rest, p.Placed source := by
  refine placed_of_map_clause (by decide) (by decide) (fun r hr => ?_) hfound
  split at hr
  · next hnext =>
      obtain ⟨hcomments, -, hrest⟩ := placed_of_next? h hnext
      obtain ⟨r', hr', rfl⟩ := Option.map_eq_some_iff.1 hr
      exact (clausePlaced_of_exportedFrom? hrest hr').append (placed_nodes hcomments)
  · exact clausePlaced_of_exportedFrom? h hr

theorem placed_of_construct? {build : List Piece → List Piece}
    (hbuild : ∀ ps, (∀ p ∈ ps, p.Placed source) → ∀ p ∈ build ps, p.Placed source)
    {before : Option Piece} {p : Piece} {ps rest : List Piece} {n : Node}
    (h : ∀ p ∈ ps, p.Placed source) (hfound : construct? build before p ps = some (n, rest)) :
    n.Placed source ∧ ∀ p ∈ rest, p.Placed source := by
  have hword : ∀ kind start stop, kind = .importKeyword ∨ kind = .identifier →
      (Node.mk kind none start stop []).Placed source := by
    rintro kind start stop (rfl | rfl) <;>
      exact Node.placed_of_kind (by decide) (by decide) _ _ _ (by simp)
  unfold construct? at hfound
  split at hfound
  · split at hfound
    · cases hfound
    · split at hfound
      · split at hfound
        · next hcall =>
            obtain rfl := Option.some.inj hfound
            exact placed_of_call? hbuild (hword _ _ _ (.inl rfl)) h hcall
        · exact placed_of_importStatement? h hfound
      · split at hfound
        · exact placed_of_exportStatement? h hfound
        · split at hfound
          · exact placed_of_call? hbuild (hword _ _ _ (.inr rfl)) h hfound
          · cases hfound
  · cases hfound

/-! ## Rows -/

theorem placed_reduce (fuel : Nat) (before : Option Piece) {ps : List Piece}
    (h : ∀ p ∈ ps, p.Placed source) : ∀ p ∈ reduce fuel before ps, p.Placed source := by
  induction fuel generalizing before ps with
  | zero => simpa [reduce] using h
  | succ fuel ih =>
      cases ps with
      | nil => simp [reduce]
      | cons p ps =>
          rw [List.forall_mem_cons] at h
          rw [reduce]
          split
          · next n rest hfound =>
              have hnode := placed_of_construct? (fun _ => ih none) h.2 hfound
              exact List.forall_mem_cons.2 ⟨hnode.1, ih _ hnode.2⟩
          · exact List.forall_mem_cons.2 ⟨h.1, ih _ h.2⟩

theorem placed_recognize {ps : List Piece} (h : ∀ p ∈ ps, p.Placed source) :
    ∀ p ∈ recognize ps, p.Placed source :=
  placed_reduce _ _ h

theorem mem_of_mem_splitCommas {ps part : List Piece} {p : Piece} (hpart : part ∈ splitCommas ps)
    (hp : p ∈ part) : p ∈ ps := by
  induction ps generalizing part with
  | nil => simp_all [splitCommas]
  | cons q ps ih =>
      rw [splitCommas] at hpart
      split at hpart
      · rcases List.mem_cons.1 hpart with rfl | hpart
        · cases hp
        · exact List.mem_cons_of_mem _ (ih hpart hp)
      · split at hpart
        · simp_all
        · next first parts hsplit =>
            rcases List.mem_cons.1 hpart with rfl | hpart
            · rcases List.mem_cons.1 hp with rfl | hp
              · exact List.mem_cons_self
              · exact List.mem_cons_of_mem _ (ih (by simp [hsplit]) hp)
            · exact List.mem_cons_of_mem _ (ih (by simp [hsplit, hpart]) hp)

theorem placed_argumentNodes {part : List Piece} (h : ∀ p ∈ part, p.Placed source) :
    ∀ n ∈ argumentNodes part, n.Placed source := by
  have hcomments := placed_nodes fun p hp =>
    h p ((List.takeWhile_sublist isComment).subset hp)
  have hinside := placed_nodes fun p hp =>
    h p ((List.dropWhile_sublist isComment).subset hp)
  unfold argumentNodes
  simp only
  split
  · exact hcomments
  · exact List.forall_mem_append.2 ⟨hcomments, hinside⟩
  · refine List.forall_mem_append.2 ⟨hcomments, List.forall_mem_singleton.2 ?_⟩
    exact Node.placed_of_kind (by decide) (by decide) _ _ _ hinside

theorem placed_groupNodes (opening : Char) {ps : List Piece} (h : ∀ p ∈ ps, p.Placed source) :
    ∀ n ∈ groupNodes opening ps, n.Placed source := by
  unfold groupNodes
  split
  · intro n hn
    obtain ⟨part, hpart, hn⟩ := List.mem_flatMap.1 hn
    exact placed_argumentNodes
      (fun p hp => placed_recognize h p (mem_of_mem_splitCommas hpart hp)) n hn
  · exact placed_nodes (placed_recognize h)

end Piece

end SliceLint
