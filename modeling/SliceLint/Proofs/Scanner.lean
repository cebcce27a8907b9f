import SliceLint.Proofs.Literals
import SliceLint.Source.Scanner

set_option autoImplicit false

/-! # The scanner places literals

In the tree of a source, each literal stands where it says (`Source.placed_of_parse?`).

The scanner hands a cursor on, whose offset is the number of bytes in front of it (`Cursor.At`), and
makes all literals from cursors. Its functions call each other, so what they do is one structure
over the fuel (`ScansPlaced`), with one step lemma for each of them. -/

namespace SliceLint

/-! ## Cursors -/

/-- A cursor of a source, with the true number of bytes in front. -/
def Cursor.At (source : List Char) (cur : Cursor) : Prop :=
  ∃ before, source = before ++ cur.rest ∧ cur.offset = Source.byteLength before

theorem Cursor.At.skip {source : List Char} {cur : Cursor} (h : cur.At source) (count : Nat) :
    (cur.skip count).At source := by
  obtain ⟨before, hsource, hoffset⟩ := h
  refine ⟨before ++ cur.rest.take count, ?_, ?_⟩
  · simp [Cursor.skip, hsource]
  · simp [Cursor.skip, hoffset]

theorem Lexeme.at_skipTrivia {source : List Char} (fuel : Nat) {cur : Cursor}
    (h : cur.At source) : (skipTrivia fuel cur).At source := by
  induction fuel generalizing cur with
  | zero => exact h
  | succ fuel ih =>
      rw [skipTrivia]
      split
      · exact h
      · split
        · exact ih (h.skip 1)
        · split
          · exact ih (h.skip _)
          · exact h

namespace Source

theorem at_expect? {source : List Char} {c : Char} {cur stop : Cursor} (h : cur.At source)
    (hstop : expect? c cur = some stop) : stop.At source := by
  unfold expect? at hstop
  split at hstop
  · split at hstop
    · obtain rfl := Option.some.inj hstop
      exact h.skip 1
    · cases hstop
  · cases hstop

theorem at_skipTypeArguments {source : List Char} {fuel depth : Nat} {cur stop : Cursor}
    (h : cur.At source) (hstop : skipTypeArguments fuel depth cur = some stop) :
    stop.At source := by
  induction fuel generalizing depth cur with
  | zero => cases hstop
  | succ fuel ih =>
      unfold skipTypeArguments at hstop
      split at hstop
      · cases hstop
      · exact ih (h.skip 2) hstop
      · split at hstop
        · exact ih (h.skip 1) hstop
        · split at hstop
          · split at hstop
            · cases hstop
            · obtain rfl := Option.some.inj hstop
              exact h.skip 1
            · exact ih (h.skip 1) hstop
          · split at hstop
            · split at hstop
              · exact ih (h.skip _) hstop
              · cases hstop
            · exact ih (h.skip 1) hstop

theorem at_skipElementName {source : List Char} {cur stop : Cursor} (h : cur.At source)
    (hstop : skipElementName cur = some stop) : stop.At source := by
  unfold skipElementName at hstop
  simp only at hstop
  split at hstop
  · cases hstop
  · split at hstop
    · exact at_skipTypeArguments (h.skip _) hstop
    · obtain rfl := Option.some.inj hstop
      exact h.skip _

theorem at_skipClosingTag {source : List Char} {cur stop : Cursor} (h : cur.At source)
    (hstop : skipClosingTag cur = some stop) : stop.At source := by
  obtain ⟨slash, hslash, hstop⟩ := Option.bind_eq_some_iff.1 hstop
  exact at_expect? (Lexeme.at_skipTrivia _ ((Lexeme.at_skipTrivia _ (at_expect? h hslash)).skip _))
    hstop

/-! ## Literals -/

theorem utf8Size_of_mem_quotes {quote : Char} (h : quote ∈ quotes) : quote.utf8Size = 1 := by
  simp only [quotes, List.mem_cons, List.not_mem_nil, or_false] at h
  obtain rfl | rfl | rfl := h <;> rfl

theorem literalAt_of_cursor {source : List Char} {cur stop : Cursor} {quote : Char}
    {inner : List Char} (h : cur.At source) (hquote : quote ∈ quotes)
    (hinner : Text.Unquoted quote inner) (hrest : cur.rest = quote :: (inner ++ quote :: stop.rest))
    (hstop : stop.offset = cur.offset + byteLength inner + 2) :
    LiteralAt source cur.offset stop.offset := by
  obtain ⟨before, hsource, hoffset⟩ := h
  exact ⟨before, quote, inner, stop.rest, by rw [hsource, hrest], hquote, hinner, hoffset, hstop⟩

end Source

/-- A string that is read has a text that does not end it, and its quote. -/
theorem Lexeme.exists_of_string? {quote : Char} (hquote : quote = '\x22' ∨ quote = '\x27')
    {cs : List Char} {count : Nat} (h : string? quote cs = some count) :
    ∃ inner after, Text.Unquoted quote inner ∧ cs = inner ++ quote :: after ∧
      count = inner.length + 1 := by
  fun_induction string? quote cs generalizing count with
  | case1 => cases h
  | case2 rest ih =>
      obtain ⟨n, hn, rfl⟩ := Option.map_eq_some_iff.1 h
      obtain ⟨inner, after, hinner, rfl, rfl⟩ := ih hn
      refine ⟨'\\' :: '\r' :: '\n' :: inner, after, .escaped (.plain ?_ (by decide) hinner), rfl,
        rfl⟩
      obtain rfl | rfl := hquote <;> decide
  | case3 c rest _ ih =>
      obtain ⟨n, hn, rfl⟩ := Option.map_eq_some_iff.1 h
      obtain ⟨inner, after, hinner, rfl, rfl⟩ := ih hn
      exact ⟨'\\' :: c :: inner, after, .escaped hinner, rfl, rfl⟩
  | case4 rest =>
      obtain rfl := Option.some.inj h
      exact ⟨[], rest, .nil, rfl, rfl⟩
  | case5 => cases h
  | case6 c rest hcr hescape hc hline ih =>
      obtain ⟨n, hn, rfl⟩ := Option.map_eq_some_iff.1 h
      -- A back slash takes a character with it, unless it is the last one.
      have hbackslash : c ≠ '\\' := by
        rintro rfl
        cases rest with
        | nil => simp [string?] at hn
        | cons d rest => exact hescape d rest rfl rfl
      obtain ⟨inner, after, hinner, rfl, rfl⟩ := ih hn
      exact ⟨c :: inner, after, .plain hc hbackslash hinner, rfl, rfl⟩

/-! ## Parts of a source -/

namespace Source

variable {source : List Char}

theorem literalAt_string {cur : Cursor} (h : cur.At source) {quote : Char} {rest : List Char}
    (hrest : cur.rest = quote :: rest) (hquote : quote = '\x22' ∨ quote = '\x27') {count : Nat}
    (hstring : Lexeme.string? quote rest = some count) :
    LiteralAt source cur.offset (cur.skip (count + 1)).offset := by
  obtain ⟨inner, after, hinner, rfl, rfl⟩ := Lexeme.exists_of_string? hquote hstring
  have hmem : quote ∈ quotes := by
    obtain rfl | rfl := hquote <;> decide
  refine literalAt_of_cursor h hmem hinner ?_ ?_
  · simp [Cursor.skip, hrest]
  · have htake : cur.rest.take (inner.length + 1 + 1) = quote :: (inner ++ [quote]) := by
      simp [hrest, List.take_append]
    have hsize := utf8Size_of_mem_quotes hmem
    simp only [Cursor.skip, htake, byteLength_cons, byteLength_append, byteLength_nil, hsize]
    omega

theorem placed_of_simplePiece? {mode mode' : Mode} {cur : Cursor} {piece : Piece} {count : Nat}
    (h : cur.At source) (hpiece : simplePiece? mode cur = some (some (piece, count, mode'))) :
    piece.Placed source := by
  have hleaf : ∀ kind count, kind = .comment ∨ kind = .other →
      (Piece.leaf (.mk kind none cur.offset (cur.skip count).offset [])).Placed source := by
    rintro kind count (rfl | rfl) <;>
      exact Node.placed_of_kind (by decide) (by decide) _ _ _ (by simp)
  unfold simplePiece? at hpiece
  simp only at hpiece
  split at hpiece
  · cases hpiece
  · simp only [Option.some.injEq, Prod.mk.injEq] at hpiece
    obtain ⟨rfl, -, -⟩ := hpiece
    exact hleaf _ _ (.inl rfl)
  · split at hpiece
    · cases hpiece
    · next c rest hrest =>
        split at hpiece
        · next hquote =>
            obtain ⟨n, hstring, heq⟩ := Option.map_eq_some_iff.1 (Option.some.inj hpiece)
            simp only [Prod.mk.injEq] at heq
            obtain ⟨rfl, -, -⟩ := heq
            exact .mk (fun _ => literalAt_string h hrest hquote hstring) (by simp)
        · split at hpiece
          · simp only [Option.some.injEq, Prod.mk.injEq] at hpiece
            obtain ⟨rfl, -, -⟩ := hpiece
            exact hleaf _ _ (.inr rfl)
          · split at hpiece
            · simp only [Option.some.injEq, Prod.mk.injEq] at hpiece
              obtain ⟨rfl, -, -⟩ := hpiece
              trivial
            · split at hpiece
              · split at hpiece
                · simp only [Option.some.injEq, Prod.mk.injEq] at hpiece
                  obtain ⟨rfl, -, -⟩ := hpiece
                  exact hleaf _ _ (.inr rfl)
                · cases hpiece
              · cases hpiece

/-- A template keeps the substitutions that it has, and without any it is read up to its quote. -/
theorem scanTemplate_literal {elements : Bool} {fuel : Nat} {cur stop : Cursor}
    {acc nodes : List Node} (h : scanTemplate elements fuel cur acc = some (nodes, stop)) :
    (∀ n ∈ acc, n ∈ nodes) ∧
      ((∀ n ∈ nodes, n.kind ≠ .substitution) →
        ∃ inner, Text.Unquoted '\x60' inner ∧ cur.rest = inner ++ '\x60' :: stop.rest ∧
          stop.offset = cur.offset + byteLength inner + 1) := by
  induction fuel generalizing cur acc with
  | zero => simp [scanTemplate] at h
  | succ fuel ih =>
      rw [scanTemplate] at h
      split at h
      · cases h
      · next tail hrest =>
          obtain ⟨hkept, hread⟩ := ih h
          refine ⟨hkept, fun hnone => ?_⟩
          obtain ⟨inner, hinner, hskip, hoffset⟩ := hread hnone
          cases tail with
          | nil => simp [Cursor.skip, hrest] at hskip
          | cons c tail =>
              refine ⟨'\\' :: c :: inner, .escaped hinner, ?_, ?_⟩
              · simpa [Cursor.skip, hrest] using hskip
              · simp only [hoffset, Cursor.skip, hrest, List.take_succ_cons, List.take_zero,
                  byteLength_cons, byteLength_nil]
                omega
      · next tail hrest =>
          split at h
          · obtain ⟨hkept, -⟩ := ih h
            refine ⟨fun n hn => hkept n (List.mem_cons_of_mem _ hn), fun hnone => ?_⟩
            exact absurd rfl (hnone _ (hkept _ List.mem_cons_self))
          · cases h
      · next c tail hescape hopen hrest =>
          split at h
          · next hquote =>
              simp only [Option.some.injEq, Prod.mk.injEq] at h
              obtain ⟨rfl, rfl⟩ := h
              refine ⟨by simp, fun _ => ⟨[], .nil, ?_, ?_⟩⟩
              · simp [Cursor.skip, hrest, hquote]
              · simp [Cursor.skip, hrest, hquote]
                rfl
          · next hquote =>
              obtain ⟨hkept, hread⟩ := ih h
              refine ⟨hkept, fun hnone => ?_⟩
              obtain ⟨inner, hinner, hskip, hoffset⟩ := hread hnone
              refine ⟨c :: inner, .plain hquote ?_ hinner, ?_, ?_⟩
              · rintro rfl
                exact hescape rfl
              · simpa [Cursor.skip, hrest] using hskip
              · simp only [hoffset, Cursor.skip, hrest, List.take_succ_cons, List.take_zero,
                  byteLength_cons, byteLength_nil]
                omega

theorem literalAt_template {elements : Bool} {fuel : Nat} {cur stop : Cursor} {tail : List Char}
    {nodes : List Node} (h : cur.At source) (hrest : cur.rest = '\x60' :: tail)
    (htemplate : scanTemplate elements fuel (cur.skip 1) [] = some (nodes, stop))
    (hnone : ∀ n ∈ nodes, n.kind ≠ .substitution) : LiteralAt source cur.offset stop.offset := by
  obtain ⟨inner, hinner, hskip, hoffset⟩ := (scanTemplate_literal htemplate).2 hnone
  have hsize : Char.utf8Size '\x60' = 1 := rfl
  refine literalAt_of_cursor h (by decide) hinner ?_ ?_
  · rw [hrest]
    simpa [Cursor.skip, hrest] using hskip
  · simp only [hoffset, Cursor.skip, hrest, List.take_succ_cons, List.take_zero, byteLength_cons,
      byteLength_nil, hsize]
    omega

/-- What comes of a part of a source: placed nodes, and a cursor after it. -/
def PartPlaced (source : List Char) (r : List Node × Cursor) : Prop :=
  (∀ n ∈ r.1, n.Placed source) ∧ r.2.At source

/-- All parts of a source are read into placed nodes, with `fuel` steps at most. -/
structure ScansPlaced (source : List Char) (elements : Bool) (fuel : Nat) : Prop where
  row : ∀ {mode cur acc r}, cur.At source → (∀ p ∈ acc, p.Placed source) →
    scan elements fuel mode cur acc = some r → (∀ p ∈ r.1, p.Placed source) ∧ r.2.At source
  group : ∀ {mode opening cur r}, cur.At source →
    scanGroup elements fuel mode opening cur = some r → PartPlaced source r
  template : ∀ {cur acc r}, cur.At source → (∀ n ∈ acc, n.Placed source) →
    scanTemplate elements fuel cur acc = some r → PartPlaced source r
  element : ∀ {cur r}, cur.At source → scanElement elements fuel cur = some r → PartPlaced source r
  attributes : ∀ {cur acc r}, cur.At source → (∀ n ∈ acc, n.Placed source) →
    scanAttributes elements fuel cur acc = some r → PartPlaced source r
  attributeValue : ∀ {cur acc r}, cur.At source → (∀ n ∈ acc, n.Placed source) →
    scanAttributeValue elements fuel cur acc = some r → PartPlaced source r
  children : ∀ {cur acc r}, cur.At source → (∀ n ∈ acc, n.Placed source) →
    scanChildren elements fuel cur acc = some r → PartPlaced source r

/-- A node around a part can be added to the nodes read before. -/
theorem PartPlaced.cons {r : List Node × Cursor} (h : PartPlaced source r) {kind : NodeKind}
    (hkind : kind = .other ∨ kind = .substitution) (start stop : Nat) {acc : List Node}
    (hacc : ∀ n ∈ acc, n.Placed source) :
    ∀ n ∈ Node.mk kind none start stop r.1 :: acc, n.Placed source := by
  refine List.forall_mem_cons.2 ⟨?_, hacc⟩
  obtain rfl | rfl := hkind <;> exact Node.placed_of_kind (by decide) (by decide) _ _ _ h.1

theorem row_succ {elements : Bool} {fuel : Nat} (ih : ScansPlaced source elements fuel)
    {mode : Mode} {cur : Cursor} {acc : List Piece} {r : List Piece × Cursor} (h : cur.At source)
    (hacc : ∀ p ∈ acc, p.Placed source) (hscan : scan elements (fuel + 1) mode cur acc = some r) :
    (∀ p ∈ r.1, p.Placed source) ∧ r.2.At source := by
  have hdone : some (acc.reverse, cur) = some r → (∀ p ∈ r.1, p.Placed source) ∧ r.2.At source := by
    intro hsome
    obtain rfl := Option.some.inj hsome
    exact ⟨by simpa using hacc, h⟩
  rw [scan] at hscan
  split at hscan
  · exact hdone hscan
  · next c tail hrest =>
      split at hscan
      · exact hdone hscan
      · split at hscan
        · exact ih.row (h.skip 1) hacc hscan
        · split at hscan
          · split at hscan
            · next hgroup =>
                have hpart := ih.group h hgroup
                refine ih.row hpart.2 (List.forall_mem_cons.2 ⟨?_, hacc⟩) hscan
                exact hpart.1
            · cases hscan
          · split at hscan
            · next hquote =>
                split at hscan
                · next nodes stop htemplate =>
                    have hpart := ih.template (h.skip 1) (by simp) htemplate
                    refine ih.row hpart.2 (List.forall_mem_cons.2 ⟨?_, hacc⟩) hscan
                    refine .mk (fun hliteral => ?_) hpart.1
                    exact literalAt_template h (hquote ▸ hrest) htemplate
                      (Node.isLiteral_template_iff.1 hliteral)
                · cases hscan
            · split at hscan
              · next hpiece =>
                  exact ih.row (h.skip _)
                    (List.forall_mem_cons.2 ⟨placed_of_simplePiece? h hpiece, hacc⟩) hscan
              · cases hscan
              · split at hscan
                · next helement =>
                    split at helement
                    · have hpart := ih.element (h.skip 1) helement
                      refine ih.row hpart.2 (List.forall_mem_cons.2 ⟨?_, hacc⟩) hscan
                      exact Node.placed_of_kind (by decide) (by decide) _ _ _ hpart.1
                    · cases helement
                · refine ih.row (h.skip _) (List.forall_mem_cons.2 ⟨?_, hacc⟩) hscan
                  trivial

theorem group_succ {elements : Bool} {fuel : Nat} (ih : ScansPlaced source elements fuel)
    {mode : Mode} {opening : Char} {cur : Cursor} {r : List Node × Cursor} (h : cur.At source)
    (hscan : scanGroup elements (fuel + 1) mode opening cur = some r) : PartPlaced source r := by
  rw [scanGroup] at hscan
  split at hscan
  · next pieces stop hrow =>
      obtain ⟨hpieces, hstop⟩ := ih.row (h.skip 1) (by simp) hrow
      obtain ⟨after, hafter, rfl⟩ := Option.map_eq_some_iff.1 hscan
      exact ⟨Piece.placed_groupNodes opening hpieces, at_expect? hstop hafter⟩
  · cases hscan

theorem template_succ {elements : Bool} {fuel : Nat} (ih : ScansPlaced source elements fuel)
    {cur : Cursor} {acc : List Node} {r : List Node × Cursor} (h : cur.At source)
    (hacc : ∀ n ∈ acc, n.Placed source)
    (hscan : scanTemplate elements (fuel + 1) cur acc = some r) : PartPlaced source r := by
  rw [scanTemplate] at hscan
  split at hscan
  · cases hscan
  · exact ih.template (h.skip 2) hacc hscan
  · split at hscan
    · next hgroup =>
        have hpart := ih.group (h.skip 1) hgroup
        exact ih.template hpart.2 (hpart.cons (.inr rfl) _ _ hacc) hscan
    · cases hscan
  · split at hscan
    · obtain rfl := Option.some.inj hscan
      exact ⟨by simpa using hacc, h.skip 1⟩
    · exact ih.template (h.skip 1) hacc hscan

theorem element_succ {elements : Bool} {fuel : Nat} (ih : ScansPlaced source elements fuel)
    {cur : Cursor} {r : List Node × Cursor} (h : cur.At source)
    (hscan : scanElement elements (fuel + 1) cur = some r) : PartPlaced source r := by
  have htrivia := Lexeme.at_skipTrivia cur.rest.length h
  rw [scanElement] at hscan
  split at hscan
  · exact ih.children (htrivia.skip 1) (by simp) hscan
  · split at hscan
    · next hname => exact ih.attributes (at_skipElementName htrivia hname) (by simp) hscan
    · cases hscan

theorem attributes_succ {elements : Bool} {fuel : Nat} (ih : ScansPlaced source elements fuel)
    {cur : Cursor} {acc : List Node} {r : List Node × Cursor} (h : cur.At source)
    (hacc : ∀ n ∈ acc, n.Placed source)
    (hscan : scanAttributes elements (fuel + 1) cur acc = some r) : PartPlaced source r := by
  have htrivia := Lexeme.at_skipTrivia cur.rest.length h
  rw [scanAttributes] at hscan
  simp only at hscan
  split at hscan
  · cases hscan
  · obtain rfl := Option.some.inj hscan
    exact ⟨by simpa using hacc, htrivia.skip 2⟩
  · split at hscan
    · exact ih.children (htrivia.skip 1) hacc hscan
    · split at hscan
      · split at hscan
        · next hgroup =>
            have hpart := ih.group htrivia hgroup
            exact ih.attributes hpart.2 (hpart.cons (.inl rfl) _ _ hacc) hscan
        · cases hscan
      · split at hscan
        · cases hscan
        · split at hscan
          · exact ih.attributeValue ((Lexeme.at_skipTrivia _ (htrivia.skip _)).skip 1) hacc hscan
          · exact ih.attributes (htrivia.skip _) hacc hscan

theorem attributeValue_succ {elements : Bool} {fuel : Nat} (ih : ScansPlaced source elements fuel)
    {cur : Cursor} {acc : List Node} {r : List Node × Cursor} (h : cur.At source)
    (hacc : ∀ n ∈ acc, n.Placed source)
    (hscan : scanAttributeValue elements (fuel + 1) cur acc = some r) : PartPlaced source r := by
  have htrivia := Lexeme.at_skipTrivia cur.rest.length h
  rw [scanAttributeValue] at hscan
  split at hscan
  · cases hscan
  · split at hscan
    · split at hscan
      · exact ih.attributes (htrivia.skip _) hacc hscan
      · cases hscan
    · split at hscan
      · split at hscan
        · next hgroup =>
            have hpart := ih.group htrivia hgroup
            exact ih.attributes hpart.2 (hpart.cons (.inl rfl) _ _ hacc) hscan
        · cases hscan
      · split at hscan
        · split at hscan
          · next helement =>
              have hpart := ih.element (htrivia.skip 1) helement
              exact ih.attributes hpart.2 (hpart.cons (.inl rfl) _ _ hacc) hscan
          · cases hscan
        · cases hscan

theorem children_succ {elements : Bool} {fuel : Nat} (ih : ScansPlaced source elements fuel)
    {cur : Cursor} {acc : List Node} {r : List Node × Cursor} (h : cur.At source)
    (hacc : ∀ n ∈ acc, n.Placed source)
    (hscan : scanChildren elements (fuel + 1) cur acc = some r) : PartPlaced source r := by
  rw [scanChildren] at hscan
  split at hscan
  · cases hscan
  · split at hscan
    · have hinner := Lexeme.at_skipTrivia cur.rest.length (h.skip 1)
      simp only at hscan
      split at hscan
      · obtain ⟨stop, hstop, rfl⟩ := Option.map_eq_some_iff.1 hscan
        exact ⟨by simpa using hacc, at_skipClosingTag hinner hstop⟩
      · split at hscan
        · next helement =>
            have hpart := ih.element hinner helement
            exact ih.children hpart.2 (hpart.cons (.inl rfl) _ _ hacc) hscan
        · cases hscan
    · split at hscan
      · split at hscan
        · next hgroup =>
            have hpart := ih.group h hgroup
            exact ih.children hpart.2 (hpart.cons (.inl rfl) _ _ hacc) hscan
        · cases hscan
      · split at hscan
        · cases hscan
        · exact ih.children (h.skip 1) hacc hscan

/-- The scanner reads all parts of a source into placed nodes. -/
theorem scansPlaced (source : List Char) (elements : Bool) (fuel : Nat) :
    ScansPlaced source elements fuel := by
  induction fuel with
  | zero => constructor <;> intros <;> simp_all [scan, scanGroup, scanTemplate, scanElement,
      scanAttributes, scanAttributeValue, scanChildren]
  | succ fuel ih =>
      exact
        { row := row_succ ih
          group := group_succ ih
          template := template_succ ih
          element := element_succ ih
          attributes := attributes_succ ih
          attributeValue := attributeValue_succ ih
          children := children_succ ih }

/-- All literals in the tree of a source stand where they say. -/
theorem placed_of_parse? {elements : Bool} {tree : Node} (h : parse? elements source = some tree) :
    tree.Placed source := by
  unfold parse? at h
  simp only at h
  have hstart : (skipInterpreter ⟨0, source⟩).At source := by
    have hzero : Cursor.At source ⟨0, source⟩ := ⟨[], rfl, rfl⟩
    unfold skipInterpreter
    split
    · exact hzero.skip _
    · exact hzero
  split at h
  · next pieces stop hscan =>
      have hpieces := ((scansPlaced source elements _).row hstart (by simp) hscan).1
      split at h
      · obtain rfl := Option.some.inj h
        exact Node.placed_of_kind (by decide) (by decide) _ _ _
          (Piece.placed_nodes (Piece.placed_recognize hpieces))
      · cases h
  · cases h

end Source

end SliceLint
