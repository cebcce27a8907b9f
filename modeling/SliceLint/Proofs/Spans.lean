import Mathlib.Data.List.Basic
import SliceLint.FileCheck
import SliceLint.Proofs.Scanner

set_option autoImplicit false

/-! # Spans of imports

The position of an import is that of the text between two quotes, told in bytes: where it starts and
how long it is, the number of line feeds in front of it, and the distance from the last of them.

A literal is read back from its span (`Import.ofSpan?_of_literal`). No character but the line feed
has a byte 10 (`Source.lineFeed_mem_encode`), so lines and columns can be counted in characters or
in bytes.

Nothing of this depends on how a tree was made. It is enough that the literals which may be
specifiers stand where they say (`Node.SpecifiersPlaced`), as they do in the trees of the scanner. -/

namespace SliceLint

/-! ## Bytes -/

namespace Source

/-- The bytes of a text. -/
def bytes (s : String) : List UInt8 :=
  s.toUTF8.data.toList

/-- The bytes of some characters. -/
def encode (cs : List Char) : List UInt8 :=
  cs.flatMap String.utf8EncodeChar

/-- The byte that ends a line. -/
def lineFeed : UInt8 := 10

theorem bytes_ofList (cs : List Char) : bytes (String.ofList cs) = encode cs := by
  simp [bytes, encode, List.utf8Encode]

theorem bytes_eq (s : String) : bytes s = encode s.toList := by
  rw [← bytes_ofList, String.ofList_toList]

@[simp] theorem encode_append (cs ds : List Char) : encode (cs ++ ds) = encode cs ++ encode ds := by
  simp [encode]

@[simp] theorem encode_cons (c : Char) (cs : List Char) :
    encode (c :: cs) = String.utf8EncodeChar c ++ encode cs := rfl

@[simp] theorem length_encode (cs : List Char) : (encode cs).length = byteLength cs := by
  induction cs with
  | nil => rfl
  | cons c cs ih => simp [ih]

/-- All bytes of a character of several bytes are large, so only one character is a line feed. -/
theorem lineFeed_mem_utf8EncodeChar {c : Char} :
    lineFeed ∈ String.utf8EncodeChar c ↔ c = '\n' := by
  constructor
  · intro h
    have hval : c.val.toNat = 10 := by
      simp only [String.utf8EncodeChar] at h
      split at h
      · next hsmall =>
          have hbyte := congrArg UInt8.toNat (List.mem_singleton.1 h)
          simp only [lineFeed, UInt8.toNat_ofNat, UInt8.toNat_ofNat'] at hbyte
          omega
      · split at h
        · simp [lineFeed, ← UInt8.toNat_inj] at h
          omega
        · split at h
          · simp [lineFeed, ← UInt8.toNat_inj] at h
            omega
          · simp [lineFeed, ← UInt8.toNat_inj] at h
            omega
    exact Char.toNat_inj.1 hval
  · rintro rfl
    decide

theorem lineFeed_mem_encode {cs : List Char} : lineFeed ∈ encode cs ↔ '\n' ∈ cs := by
  simp only [encode, List.mem_flatMap, lineFeed_mem_utf8EncodeChar, exists_eq_right]

/-! ## Lines and columns -/

theorem lineAfter_eq (cs : List Char) : lineAfter cs = 1 + (encode cs).count lineFeed := by
  have hcount : cs.count '\n' = (encode cs).count lineFeed := by
    induction cs with
    | nil => rfl
    | cons c cs ih =>
        rw [encode_cons, List.count_append, ← ih]
        by_cases hc : c = '\n'
        · subst hc
          have hone : (String.utf8EncodeChar '\n').count lineFeed = 1 := by decide
          rw [List.count_cons_self, hone, Nat.add_comm]
        · rw [List.count_cons_of_ne hc, List.count_eq_zero.2 (mt lineFeed_mem_utf8EncodeChar.1 hc),
            Nat.zero_add]
  rw [lineAfter, hcount]

/-- Where the line of a position starts: after the last line feed in front of the position, or with
the first byte. -/
structure IsLineStart (bytes : List UInt8) (position start : Nat) : Prop where
  le : start ≤ position
  after : start = 0 ∨ bytes[start - 1]? = some lineFeed
  last : ∀ k, start ≤ k → k < position → bytes[k]? ≠ some lineFeed

/-- A text is divided after its last line feed. -/
theorem exists_lastLine (cs : List Char) :
    ∃ head tail, cs = head ++ tail ∧ '\n' ∉ tail ∧ columnAfter cs = byteLength tail ∧
      (head = [] ∨ ∃ init, head = init ++ ['\n']) := by
  refine ⟨(cs.reverse.dropWhile (· != '\n')).reverse, (cs.reverse.takeWhile (· != '\n')).reverse,
    ?_, ?_, rfl, ?_⟩
  · rw [← List.reverse_append, List.takeWhile_append_dropWhile, List.reverse_reverse]
  · intro hmem
    have hne := List.all_eq_true.1 List.all_takeWhile _ (List.mem_reverse.1 hmem)
    simp at hne
  · cases hdrop : cs.reverse.dropWhile (· != '\n') with
    | nil => exact Or.inl rfl
    | cons c rest =>
        have hc : (c != '\n') = false := by
          have hhead := List.head?_dropWhile_not (· != '\n') cs.reverse
          simpa [hdrop] using hhead
        have hline : c = '\n' := by simpa using hc
        exact Or.inr ⟨rest.reverse, by simp [hline]⟩

/-- The column after a text is the distance from the start of the line, whatever follows. -/
theorem exists_isLineStart (cs rest : List Char) :
    ∃ start, IsLineStart (encode (cs ++ rest)) (byteLength cs) start ∧
      columnAfter cs + start = byteLength cs := by
  obtain ⟨head, tail, rfl, htail, hcolumn, hhead⟩ := exists_lastLine cs
  refine ⟨byteLength head, ⟨by simp, ?_, ?_⟩, by rw [hcolumn, byteLength_append, Nat.add_comm]⟩
  · obtain rfl | ⟨init, rfl⟩ := hhead
    · exact Or.inl rfl
    · have hone : String.utf8EncodeChar '\n' = [lineFeed] := by decide
      have hsize : Char.utf8Size '\n' = 1 := rfl
      right
      simp [encode_append, hone, hsize, List.append_assoc]
  · intro k hk hlt hbyte
    rw [byteLength_append] at hlt
    rw [List.append_assoc, encode_append, List.getElem?_append_right (by simpa using hk),
      length_encode, encode_append, List.getElem?_append_left (by rw [length_encode]; omega)]
      at hbyte
    exact htail (lineFeed_mem_encode.1 (List.mem_of_getElem? hbyte))

theorem columnAfter_concat {cs : List Char} {c : Char} (hc : c ≠ '\n') :
    columnAfter (cs ++ [c]) = columnAfter cs + c.utf8Size := by
  simp [columnAfter, hc]

theorem lineAfter_concat {cs : List Char} {c : Char} (hc : c ≠ '\n') :
    lineAfter (cs ++ [c]) = lineAfter cs := by
  simp [lineAfter, hc]

/-! ## Literals -/

theorem splitBytes?_append (xs ys : List Char) :
    splitBytes? (byteLength xs) (xs ++ ys) = some (xs, ys) := by
  induction xs with
  | nil => simp [splitBytes?]
  | cons c xs ih =>
      have hpos := c.utf8Size_pos
      obtain ⟨n, hn⟩ : ∃ n, byteLength (c :: xs) = n + 1 :=
        ⟨byteLength (c :: xs) - 1, by rw [byteLength_cons]; omega⟩
      have hrest : n + 1 - c.utf8Size = byteLength xs := by
        rw [← hn, byteLength_cons]
        omega
      rw [hn, List.cons_append, splitBytes?, if_pos (by rw [← hn, byteLength_cons]; omega), hrest,
        ih]
      rfl

end Source

namespace Import

/-- A literal is read back from its span, without its quotes. -/
theorem ofSpan?_of_literal {before inner after : List Char} {quote : Char}
    (hquote : quote ∈ Source.quotes) :
    ofSpan? (before ++ quote :: (inner ++ quote :: after)) (Source.byteLength before)
        (Source.byteLength before + Source.byteLength inner + 2)
      = some
        { line := Source.lineAfter before
          column := Source.columnAfter before + 1
          offset := Source.byteLength before + 1
          length := Source.byteLength inner
          specifier := String.ofList inner } := by
  have hsize := Source.utf8Size_of_mem_quotes hquote
  have htext : Source.byteLength (quote :: (inner ++ [quote])) = Source.byteLength inner + 2 := by
    simp only [Source.byteLength_cons, Source.byteLength_append, Source.byteLength_nil, hsize]
    omega
  have hstop : Source.byteLength before + Source.byteLength inner + 2 - Source.byteLength before
      = Source.byteLength (quote :: (inner ++ [quote])) := by
    rw [htext]
    omega
  have hsplit : Source.splitBytes? (Source.byteLength (quote :: (inner ++ [quote])))
      (quote :: (inner ++ quote :: after)) = some (quote :: (inner ++ [quote]), after) := by
    simpa using Source.splitBytes?_append (quote :: (inner ++ [quote])) after
  have hopen : Source.splitBytes? 1 (quote :: (inner ++ [quote]))
      = some ([quote], inner ++ [quote]) := by
    simpa [hsize] using Source.splitBytes?_append [quote] (inner ++ [quote])
  have hinner : Source.splitBytes? (Source.byteLength (quote :: (inner ++ [quote])) - 2)
      (inner ++ [quote]) = some (inner, [quote]) := by
    rw [htext]
    exact Source.splitBytes?_append inner [quote]
  have hlong : ¬ Source.byteLength (quote :: (inner ++ [quote])) < 2 := by
    rw [htext]
    omega
  unfold ofSpan?
  rw [Source.splitBytes?_append, hstop]
  simp only [Option.bind_eq_bind, Option.bind_some, hsplit, if_neg hlong, hopen, hinner]

end Import

/-! ## The literals of imports -/

namespace Node

theorem preorder_eq (n : Node) : n.preorder = n :: preorderAll n.children := by
  cases n
  rw [preorder, children]

theorem preorderAll_append (ns ms : List Node) :
    preorderAll (ns ++ ms) = preorderAll ns ++ preorderAll ms := by
  induction ns with
  | nil => simp [preorderAll]
  | cons n ns ih => simp [preorderAll, ih]

theorem preorderAll_singleton (n : Node) : preorderAll [n] = n.preorder := by
  rw [preorderAll, preorderAll, List.append_nil]

/-- To visit the trees on a stack is to go through them one after the other. -/
theorem visit_eq_preorderAll (stack : List Node) : visit stack = preorderAll stack := by
  fun_induction visit stack with
  | case1 => rfl
  | case2 n stack ih => rw [ih, preorderAll_append, preorderAll, preorder_eq, List.cons_append]

/-- The children of visited nodes are visited. -/
theorem mem_visit_of_mem_children {stack : List Node} {n c : Node} (hn : n ∈ visit stack)
    (hc : c ∈ n.children) : c ∈ visit stack := by
  fun_induction visit stack with
  | case1 => cases hn
  | case2 top stack ih =>
      rcases List.mem_cons.1 hn with rfl | hn
      · refine List.mem_cons_of_mem _ ?_
        obtain ⟨front, back, hsplit⟩ := List.append_of_mem hc
        rw [visit_eq_preorderAll, preorderAll_append, hsplit, preorderAll_append, preorderAll,
          preorder_eq]
        simp
      · exact List.mem_cons_of_mem _ (ih hn)

theorem placed_of_mem_visit {source : List Char} {stack : List Node}
    (h : ∀ n ∈ stack, n.Placed source) : ∀ n ∈ visit stack, n.Placed source := by
  fun_induction visit stack with
  | case1 => simp
  | case2 n stack ih =>
      rw [List.forall_mem_cons] at h
      refine List.forall_mem_cons.2 ⟨h.1, ih ?_⟩
      exact List.forall_mem_append.2 ⟨fun c hc => h.1.of_mem_children hc, h.2⟩

/-- A literal that a node may name a module by: its specifier, or one of the arguments that the node
is. -/
structure MayName (n literal : Node) : Prop where
  child : literal ∈ n.children
  isLiteral : literal.isLiteral = true
  role : literal.role = some .source ∨ n.role = some .arguments

/-- A tree in which all literals that may be specifiers stand where they say. Other strings may be
written otherwise: in the attributes of elements, a back slash does not escape a quote. -/
def SpecifiersPlaced (source : List Char) (tree : Node) : Prop :=
  ∀ n ∈ tree.preorder, ∀ literal, n.MayName literal →
    Source.LiteralAt source literal.start literal.stop

variable {source : List Char} {tree : Node}

theorem visit_singleton (tree : Node) : visit [tree] = tree.preorder := by
  rw [visit_eq_preorderAll, preorderAll_singleton]

theorem mem_preorder_of_mem_children {n c : Node} (hn : n ∈ tree.preorder) (hc : c ∈ n.children) :
    c ∈ tree.preorder := by
  rw [← visit_singleton] at hn ⊢
  exact mem_visit_of_mem_children hn hc

/-- Where all literals stand where they say, those that may be specifiers do. -/
theorem Placed.specifiersPlaced (h : tree.Placed source) : tree.SpecifiersPlaced source := by
  intro n hn literal hnames
  rw [← visit_singleton] at hn
  have hplaced := placed_of_mem_visit (List.forall_mem_singleton.2 h) n hn
  exact (hplaced.of_mem_children hnames.child).literalAt hnames.isLiteral

/-- What is found in a role is a child in this role. -/
theorem of_child? {n c : Node} {role : Role} (h : n.child? role = some c) :
    c ∈ n.children ∧ c.role = some role :=
  ⟨List.mem_of_find?_eq_some h, by simpa using List.find?_some h⟩

theorem of_literal? {n : Node} {i : Import} (h : n.literal? source = some i) :
    n.isLiteral = true ∧ Import.ofSpan? source n.start n.stop = some i := by
  unfold literal? at h
  split at h
  · next hliteral => exact ⟨hliteral, h⟩
  · cases h

theorem exists_of_sourceImport? {n : Node} {i : Import} (h : n.sourceImport? source = some i) :
    ∃ literal, n.MayName literal ∧ literal.literal? source = some i := by
  obtain ⟨literal, hfound, hliteral⟩ := Option.bind_eq_some_iff.1 h
  obtain ⟨hchild, hrole⟩ := of_child? hfound
  exact ⟨literal, ⟨hchild, (of_literal? hliteral).1, Or.inl hrole⟩, hliteral⟩

theorem exists_of_callImport? {n : Node} {i : Import} (h : n.callImport? source = some i) :
    ∃ arguments ∈ n.children, ∃ literal, arguments.MayName literal ∧
      literal.literal? source = some i := by
  obtain ⟨callee, -, h⟩ := Option.bind_eq_some_iff.1 h
  obtain ⟨arguments, harguments, h⟩ := Option.bind_eq_some_iff.1 h
  split at h
  · obtain ⟨literal, hfirst, hliteral⟩ := Option.bind_eq_some_iff.1 h
    obtain ⟨hchild, hrole⟩ := of_child? harguments
    have hargument : literal ∈ arguments.children := List.mem_of_mem_head? hfirst
    exact ⟨arguments, hchild, literal, ⟨hargument, (of_literal? hliteral).1, Or.inr hrole⟩,
      hliteral⟩
  · cases h

/-- The import of a node is that of a literal which the node, or a child of it, may name a module
by. -/
theorem exists_of_import? {n : Node} {i : Import} (h : n.import? source = some i) :
    ∃ m, (m = n ∨ m ∈ n.children) ∧ ∃ literal, m.MayName literal ∧
      literal.literal? source = some i := by
  unfold import? at h
  split at h
  · rcases Option.or_eq_some_iff.1 h with hsource | ⟨-, hclause⟩
    · exact ⟨n, Or.inl rfl, exists_of_sourceImport? hsource⟩
    · obtain ⟨clause, hfound, hsource⟩ := Option.bind_eq_some_iff.1 hclause
      exact ⟨clause, Or.inr (List.mem_of_find?_eq_some hfound), exists_of_sourceImport? hsource⟩
  · exact ⟨n, Or.inl rfl, exists_of_sourceImport? h⟩
  · obtain ⟨arguments, hchild, hliteral⟩ := exists_of_callImport? h
    exact ⟨arguments, Or.inr hchild, hliteral⟩
  · cases h

/-- Each import of a tree is read from the span of a literal that a node of it may name a module
by. -/
theorem exists_of_mem_imports {i : Import} (h : i ∈ tree.imports source) :
    ∃ n ∈ tree.preorder, ∃ literal, n.MayName literal ∧
      Import.ofSpan? source literal.start literal.stop = some i := by
  rw [imports, visit_singleton] at h
  obtain ⟨n, hn, himport⟩ := List.mem_filterMap.1 h
  obtain ⟨m, hm, literal, hnames, hliteral⟩ := exists_of_import? himport
  refine ⟨m, ?_, literal, hnames, (of_literal? hliteral).2⟩
  rcases hm with rfl | hm
  · exact hn
  · exact mem_preorder_of_mem_children hn hm

end Node

/-! ## Exact spans -/

/-- The place of an import in the bytes of a source: its text is the specifier, it stands between
two equal quotes that are not ended in between, and line and column are those of its first byte. -/
structure Import.IsExact (source : String) (i : Import) : Prop where
  text : ((Source.bytes source).drop i.offset).take i.length = Source.bytes i.specifier
  quoted : 0 < i.offset ∧ ∃ quote ∈ Source.quotes, Text.Unquoted quote i.specifier.toList ∧
    (Source.bytes source)[i.offset - 1]? = some quote.toUInt8 ∧
    (Source.bytes source)[i.offset + i.length]? = some quote.toUInt8
  line : i.line = 1 + ((Source.bytes source).take i.offset).count Source.lineFeed
  column : ∃ start, Source.IsLineStart (Source.bytes source) i.offset start ∧
    i.column + start = i.offset

namespace Source

theorem encode_quote {quote : Char} (h : quote ∈ quotes) :
    String.utf8EncodeChar quote = [quote.toUInt8] ∧ quote ≠ '\n' := by
  simp only [quotes, List.mem_cons, List.not_mem_nil, or_false] at h
  obtain rfl | rfl | rfl := h <;> decide

end Source

theorem Import.isExact_of_literal {source : String} {before inner after : List Char} {quote : Char}
    (hsource : source.toList = before ++ quote :: (inner ++ quote :: after))
    (hquote : quote ∈ Source.quotes) (hinner : Text.Unquoted quote inner) :
    IsExact source
      { line := Source.lineAfter before
        column := Source.columnAfter before + 1
        offset := Source.byteLength before + 1
        length := Source.byteLength inner
        specifier := String.ofList inner } := by
  obtain ⟨hbyte, hline⟩ := Source.encode_quote hquote
  have hsize := Source.utf8Size_of_mem_quotes hquote
  -- The text in front of the specifier ends with the opening quote.
  have hfront : Source.byteLength (before ++ [quote]) = Source.byteLength before + 1 := by
    simp [hsize]
  have hsplit : source.toList = (before ++ [quote]) ++ (inner ++ quote :: after) := by
    simpa using hsource
  have hbytes : Source.bytes source
      = Source.encode (before ++ [quote])
        ++ (Source.encode inner ++ quote.toUInt8 :: Source.encode after) := by
    rw [Source.bytes_eq, hsplit, Source.encode_append _ (inner ++ quote :: after),
      Source.encode_append inner, Source.encode_cons quote after, hbyte, List.singleton_append]
  constructor
  · rw [hbytes, Source.bytes_ofList, ← hfront, ← Source.length_encode, List.drop_left,
      ← Source.length_encode, List.take_left]
  · refine ⟨Nat.succ_pos _, quote, hquote, by simpa using hinner, ?_, ?_⟩
    · have hencode :
          Source.encode (before ++ [quote]) = Source.encode before ++ [quote.toUInt8] := by
        simp [hbyte, Source.encode]
      rw [hbytes, hencode]
      simp
    · rw [hbytes, ← hfront, ← Source.length_encode, ← Source.length_encode inner,
        List.getElem?_append_right (Nat.le_add_right _ _), Nat.add_sub_cancel_left,
        List.getElem?_append_right (Nat.le_refl _), Nat.sub_self, List.getElem?_cons_zero]
  · rw [hbytes, ← hfront, ← Source.length_encode, List.take_left, ← Source.lineAfter_eq,
      Source.lineAfter_concat hline]
  · have hstart := Source.exists_isLineStart (before ++ [quote]) (inner ++ quote :: after)
    rw [← hsplit, ← Source.bytes_eq, Source.columnAfter_concat hline, hfront, hsize] at hstart
    exact hstart

/-! ## Violations -/

/-- A violation at the place of an import, like the replacement that it may suggest. -/
structure Import.Locates (file : String) (i : Import) (v : Violation) : Prop where
  location : v.location = ⟨file, i.line, i.column + 1, i.offset, i.length⟩
  replacement : ∀ suggestion ∈ v.suggestion, ∀ r ∈ suggestion.replacement,
    r.location = ⟨file, i.line, i.column + 1, i.offset, i.length⟩

namespace EdgeReport

theorem locates_of_mem_violations {r : EdgeReport} {i : Import} {file : String} {v : Violation}
    (h : v ∈ r.violations (i.location file)) : i.Locates file v := by
  obtain ⟨f, -, rfl⟩ := List.mem_map.1 h
  refine ⟨rfl, fun suggestion hsuggestion replacement hreplacement => ?_⟩
  obtain ⟨message, -, rfl⟩ := Option.map_eq_some_iff.1 hsuggestion
  obtain ⟨fixed, -, rfl⟩ := Option.map_eq_some_iff.1 hreplacement
  rfl

end EdgeReport

/-- The violations of a file come import by import, each at the place of its import. -/
theorem Analyzer.exists_checkImports_eq (w : Workspace) (file : String) (a : Analyzer)
    (imports : List Import) :
    ∃ groups : List (List Violation), (a.checkImports w file imports).1 = groups.flatten ∧
      List.Forall₂ (fun i vs => ∀ v ∈ vs, i.Locates file v) imports groups := by
  induction imports generalizing a with
  | nil => exact ⟨[], rfl, .nil⟩
  | cons i imports ih =>
      obtain ⟨groups, hgroups, hlocates⟩ := ih (a.check w file i.specifier).2
      refine ⟨(a.check w file i.specifier).1.violations (i.location file) :: groups, ?_, ?_⟩
      · rw [List.flatten_cons, ← hgroups]
        rfl
      · exact .cons (fun v hv => EdgeReport.locates_of_mem_violations hv) hlocates

/-! ## Imports of a source -/

/-- The import at the span of a literal that stands where it says. -/
theorem Import.isExact_of_literalAt {source : String} {start stop : Nat} {i : Import}
    (h : Source.LiteralAt source.toList start stop)
    (hspan : ofSpan? source.toList start stop = some i) :
    IsExact source i ∧ i.offset = start + 1 ∧ i.offset + i.length + 1 = stop := by
  obtain ⟨before, quote, inner, after, hsource, hquote, hinner, rfl, rfl⟩ := h
  rw [hsource, ofSpan?_of_literal hquote] at hspan
  obtain rfl := Option.some.inj hspan
  refine ⟨isExact_of_literal hsource hquote hinner, rfl, ?_⟩
  show Source.byteLength before + 1 + Source.byteLength inner + 1 = _
  omega

namespace Node

/-- Take any tree of a source in which the literals that may be specifiers stand where they say. Each
of its imports is the text of one such literal, and its line, column, offset and length are those of
this text in the bytes of the source. Violations of the import, and the replacements that they
suggest, are at the same place, with the column counted from one. The imports of a source in a
language are those of such a tree, if there are any. -/
theorem imports_exact (source : String) :
    (∀ tree : Node, tree.SpecifiersPlaced source.toList →
      (∀ i ∈ tree.imports source.toList, i.IsExact source ∧
        ∃ n ∈ tree.preorder, ∃ literal, n.MayName literal ∧
          i.offset = literal.start + 1 ∧ i.offset + i.length + 1 = literal.stop) ∧
      ∀ (w : Workspace) (file : String) (a : Analyzer),
        ∃ groups : List (List Violation),
          (a.checkImports w file (tree.imports source.toList)).1 = groups.flatten ∧
          List.Forall₂ (fun i vs => ∀ v ∈ vs, i.Locates file v) (tree.imports source.toList)
            groups) ∧
    ∀ language : Language, language.imports source = [] ∨
      ∃ tree, Source.parse? language.hasElements source.toList = some tree ∧
        tree.SpecifiersPlaced source.toList ∧
        language.imports source = tree.imports source.toList := by
  constructor
  · intro tree hplaced
    refine ⟨fun i hi => ?_, fun w file a => a.exists_checkImports_eq w file _⟩
    obtain ⟨n, hn, literal, hnames, hspan⟩ := exists_of_mem_imports hi
    obtain ⟨hexact, hoffset, hstop⟩ :=
      Import.isExact_of_literalAt (hplaced n hn literal hnames) hspan
    exact ⟨hexact, n, hn, literal, hnames, hoffset, hstop⟩
  · intro language
    unfold Language.imports
    cases htree : Source.parse? language.hasElements source.toList with
    | none => exact Or.inl rfl
    | some tree =>
        exact Or.inr ⟨tree, rfl, (Source.placed_of_parse? htree).specifiersPlaced, rfl⟩

/-- A source with an element, in whose attribute a back slash stands in front of the closing quote.
In front of the specifier stand a character of two bytes and a carriage return, and one more such
character is in it. -/
def attributed : String :=
  "const é = <a b=\"\\\"/>;\r\nimport a from \"@/entities/user/ü\";"

/-- A tree of `attributed`, the string in the attribute included. -/
def attributedTree : Node :=
  .mk .program none 0 59
    [.mk .other none 0 22 [.mk .other none 11 21 [.mk .string none 16 19 []]],
      .mk .importStatement none 24 59
        [.mk .identifier none 31 32 [], .mk .string (some .source) 38 58 []]]

theorem specifiersPlaced_attributedTree :
    attributedTree.SpecifiersPlaced attributed.toList := by
  intro n hn literal hnames
  have honly : ∀ n ∈ attributedTree.preorder, ∀ c ∈ n.children, c.isLiteral = true →
      (c.role = some .source ∨ n.role = some .arguments) → c.start = 38 ∧ c.stop = 58 := by
    decide +kernel
  obtain ⟨hstart, hstop⟩ := honly n hn literal hnames.child hnames.isLiteral hnames.role
  let cur : Cursor := ⟨38, '\x22' :: "@/entities/user/ü\";".toList⟩
  have hat : cur.At attributed.toList :=
    ⟨"const é = <a b=\"\\\"/>;\r\nimport a from ".toList, by decide +kernel, by decide +kernel⟩
  have hstring : Lexeme.string? '\x22' "@/entities/user/ü\";".toList = some 18 := by decide +kernel
  have hskip : (cur.skip 19).offset = 58 := by decide +kernel
  rw [hstart, hstop, ← hskip]
  exact Source.literalAt_string hat rfl (Or.inl rfl) hstring

/-- The string in the attribute makes no difference, and the scanner finds the same import. It is
within its slice, so a replacement is suggested. -/
theorem imports_exact_attributed :
    let file := "src/entities/user/model.tsx"
    let i : Import := ⟨2, 15, 39, 18, "@/entities/user/ü"⟩
    let a : Analyzer := ⟨some "src", [⟨.pathChecker none, .error⟩], .ofOptions ⟨["@"], none⟩, []⟩
    attributedTree.SpecifiersPlaced attributed.toList ∧
      attributedTree.imports attributed.toList = [i] ∧ Language.tsx.imports attributed = [i] ∧
      i.IsExact attributed ∧
      ∃ v ∈ (a.checkImports ⟨.empty, []⟩ file (attributedTree.imports attributed.toList)).1,
        i.Locates file v ∧
          v.suggestion.bind (·.replacement) = some ⟨⟨file, 2, 16, 39, 18⟩, "./ü"⟩ := by
  intro file i a
  have himports : attributedTree.imports attributed.toList = [i] := by decide +kernel
  obtain ⟨hexact, hplaces⟩ :=
    (imports_exact attributed).1 attributedTree specifiersPlaced_attributedTree
  obtain ⟨groups, hflat, hlocates⟩ := hplaces ⟨.empty, []⟩ file a
  obtain ⟨v, hv, hreplacement⟩ :
      ∃ v ∈ (a.checkImports ⟨.empty, []⟩ file (attributedTree.imports attributed.toList)).1,
        v.suggestion.bind (·.replacement) = some ⟨⟨file, 2, 16, 39, 18⟩, "./ü"⟩ := by
    decide +kernel
  refine ⟨specifiersPlaced_attributedTree, himports, by decide +kernel,
    (hexact i (by simp [himports])).1, v, hv, ?_, hreplacement⟩
  rw [himports] at hlocates
  cases hlocates with
  | cons hgroup hrest =>
      cases hrest
      rw [hflat, List.flatten_singleton] at hv
      exact hgroup v hv

end Node

end SliceLint
