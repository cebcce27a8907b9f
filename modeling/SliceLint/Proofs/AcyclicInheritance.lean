import SliceLint.Proofs.Inheritance

set_option autoImplicit false

/-! # Inheritance without cycles

Where no document leads back to itself, the chain of documents that are being loaded cuts nothing
off. A document then loads as if there were no chain: over whatever the documents that it extends
load to, each of them on its own (`loadMerged?_acyclic`). Two ways to one document are no cycle, and
the document counts on both.

What is merged is known from three equations about `overlay`: the targets of a key are those of the
last document that has the key, the base directory is the last one that is given, and the keys stand
in the order in which they first occur. -/

namespace SliceLint

namespace Document

/-- The targets that a document maps a path pattern to. -/
def get? (d : Document) (key : String) : Option (List String) :=
  d.paths.lookup key

/-! ## Each key once -/

theorem nodup_eraseDups (xs : List String) : xs.eraseDups.Nodup := by
  induction xs using List.reverseRecOn with
  | nil => exact List.nodup_nil
  | append_singleton xs x ih =>
      rw [eraseDups_concat]
      split
      · exact ih
      · next hx =>
          have hnew : x ∉ xs.eraseDups := by simpa using hx
          rw [List.nodup_append]
          refine ⟨ih, by simp, fun y hy z hz he => ?_⟩
          obtain rfl := List.mem_singleton.1 hz
          exact hnew (he ▸ hy)

theorem nodup_keys_overlay (d : Document) (parents : List Document) :
    (d.overlay parents).keys.Nodup := by
  rw [keys_overlay]
  exact nodup_eraseDups _

/-! ## Values -/

theorem lookup_cons (entry : String × List String) (rest : List (String × List String))
    (k : String) :
    (entry :: rest).lookup k = if k = entry.1 then some entry.2 else rest.lookup k := by
  rw [List.lookup_cons]
  by_cases hk : k = entry.1
  · simp [hk]
  · simp only [beq_eq_false_iff_ne.2 hk, if_neg hk]

theorem lookup_setPath (key k : String) (targets : List String)
    (paths : List (String × List String)) :
    (setPath key targets paths).lookup k = if k = key then some targets else paths.lookup k := by
  induction paths with
  | nil => rw [setPath, lookup_cons]
  | cons entry rest ih =>
      obtain ⟨k', ts⟩ := entry
      rw [setPath]
      by_cases hk' : k' = key
      · subst hk'
        rw [if_pos rfl, lookup_cons, lookup_cons]
        by_cases hk : k = k'
        · rw [if_pos hk, if_pos hk]
        · rw [if_neg hk, if_neg hk, if_neg hk]
      · rw [if_neg hk', lookup_cons, lookup_cons, ih]
        by_cases hk : k = k'
        · have hkey : ¬ k = key := fun he => hk' (hk.symm.trans he)
          rw [if_pos hk, if_neg hkey, if_pos hk]
        · rw [if_neg hk, if_neg hk]

/-- Of two maps, the second one counts where it has the key. -/
theorem lookup_extendPaths {base more : List (String × List String)}
    (h : (more.map (·.1)).Nodup) (k : String) :
    (extendPaths base more).lookup k = (more.lookup k).or (base.lookup k) := by
  induction more generalizing base with
  | nil => simp [extendPaths]
  | cons entry more ih =>
      rw [List.map_cons, List.nodup_cons] at h
      have hrest : (extendPaths base (entry :: more)).lookup k
          = (more.lookup k).or ((setPath entry.1 entry.2 base).lookup k) := ih h.2
      rw [hrest, lookup_setPath, lookup_cons]
      by_cases hk : k = entry.1
      · -- the key does not occur a second time
        have hnone : more.lookup k = none := by
          rw [List.lookup_eq_none_iff]
          intro other hother
          have hne : k ≠ other.1 := by
            intro he
            exact h.1 (List.mem_map.2 ⟨other, hother, he.symm.trans hk⟩)
          simpa using hne
        rw [if_pos hk, if_pos hk, hnone]
        rfl
      · rw [if_neg hk, if_neg hk]

theorem lookup_mergeInherited {parents : List Document} (h : ∀ p ∈ parents, p.keys.Nodup)
    (k : String) :
    (mergeInherited parents).1.lookup k = parents.reverse.findSome? (·.get? k) := by
  induction parents using List.reverseRecOn with
  | nil => rfl
  | append_singleton parents parent ih =>
      have hparent : (parent.paths.map (·.1)).Nodup := h parent (by simp)
      rw [mergeInherited_concat, lookup_extendPaths hparent, ih fun p hp => h p (by simp [hp]),
        List.reverse_append, List.findSome?_append, List.reverse_singleton,
        List.findSome?_singleton]
      rfl

/-- The targets of a key: the document's own, or those of the last of the others that has it. -/
theorem get?_overlay {d : Document} {parents : List Document} (hd : d.keys.Nodup)
    (h : ∀ p ∈ parents, p.keys.Nodup) (k : String) :
    (d.overlay parents).get? k = (d.get? k).or (parents.reverse.findSome? (·.get? k)) := by
  rw [← lookup_mergeInherited h]
  exact lookup_extendPaths hd k

theorem baseUrl_overlay (d : Document) (parents : List Document) :
    (d.overlay parents).baseUrl = d.baseUrl.or (parents.reverse.findSome? (·.baseUrl)) := by
  have hmerged : (mergeInherited parents).2 = parents.reverse.findSome? (·.baseUrl) := by
    induction parents using List.reverseRecOn with
    | nil => rfl
    | append_singleton parents parent ih =>
        rw [mergeInherited_concat, ih, List.reverse_append, List.findSome?_append,
          List.reverse_singleton, List.findSome?_singleton]
  rw [← hmerged]
  rfl

/-! ## Documents that are read -/

theorem nodup_of_readPaths? {v : Json} {paths : List (String × List String)}
    (h : readPaths? v = some paths) : (paths.map (·.1)).Nodup := by
  obtain ⟨members, -, h⟩ := Option.bind_eq_some_iff.1 h
  split at h
  · obtain rfl := Option.some.inj h
    have hempty : ([] : List (String × List String)).map (·.1) = ([] : List String).eraseDups := rfl
    rw [keys_extendPaths hempty]
    exact nodup_eraseDups _
  · cases h

theorem nodup_of_readOptions? {v : Option Json} {baseUrl : Option String}
    {paths : List (String × List String)} (h : readOptions? v = some (baseUrl, paths)) :
    (paths.map (·.1)).Nodup := by
  unfold readOptions? at h
  split at h
  · cases h
    exact List.nodup_nil
  · cases h
    exact List.nodup_nil
  · obtain ⟨fields, -, h⟩ := Option.bind_eq_some_iff.1 h
    split at h
    · obtain ⟨url, -, h⟩ := Option.bind_eq_some_iff.1 h
      split at h
      · cases h
        exact List.nodup_nil
      · obtain ⟨read, hread, h⟩ := Option.bind_eq_some_iff.1 h
        cases h
        exact nodup_of_readPaths? hread
    · cases h

/-- A document that is read has each of its keys once. -/
theorem nodup_keys_of_load? {w : Workspace} {path : String} {d : Document}
    (h : load? w path = some d) : d.keys.Nodup := by
  obtain ⟨text, -, h⟩ := Option.bind_eq_some_iff.1 h
  obtain ⟨v, -, h⟩ := Option.bind_eq_some_iff.1 h
  obtain ⟨fields, -, h⟩ := Option.bind_eq_some_iff.1 h
  split at h
  · obtain ⟨inherited, -, h⟩ := Option.bind_eq_some_iff.1 h
    obtain ⟨⟨baseUrl, paths⟩, hoptions, h⟩ := Option.bind_eq_some_iff.1 h
    cases h
    exact nodup_of_readOptions? hoptions
  · cases h

/-! ## Loading without a chain -/

/-- The paths that the references of the document at a path lead to. -/
def extended (w : Workspace) (path : String) : List String :=
  ((load? w path).elim [] inherited).filterMap (locateInherited? w (directoryOf path))

/-- No document that is reached from a path is reached again from one of its own references. Paths
of one place are paths of one document. -/
def Acyclic (w : Workspace) (path : String) : Prop :=
  ∀ mid last, Reaches w path mid → (∃ next ∈ extended w mid, Reaches w next last) →
    w.locate last ≠ w.locate mid

/-- Load a document over what the documents that it extends load to, whatever else is being loaded.
The recursion is at most `fuel` deep. -/
def mergePlain? (w : Workspace) : Nat → String → Option Document
  | 0, _ => none
  | fuel + 1, path =>
    (load? w path).map fun d =>
      d.overlay (d.inherited.filterMap fun reference =>
        (locateInherited? w (directoryOf path) reference).bind (mergePlain? w fuel))

theorem mem_extended {w : Workspace} {path next : String} :
    next ∈ extended w path ↔ ∃ d reference, load? w path = some d ∧ reference ∈ d.inherited ∧
      locateInherited? w (directoryOf path) reference = some next := by
  rw [extended, List.mem_filterMap]
  cases load? w path with
  | none => simp
  | some d => simp

/-- What the references of a document come to depends only on the paths that they lead to. -/
theorem filterMap_inherited_congr {w : Workspace} {path : String} {own : Document}
    (hload : load? w path = some own) {f g : String → Option Document}
    (h : ∀ next ∈ extended w path, f next = g next) :
    (own.inherited.filterMap fun reference =>
        (locateInherited? w (directoryOf path) reference).bind f)
      = own.inherited.filterMap fun reference =>
        (locateInherited? w (directoryOf path) reference).bind g := by
  refine List.filterMap_congr fun reference hmem => ?_
  cases hlocated : locateInherited? w (directoryOf path) reference with
  | none => rfl
  | some next => exact h next (mem_extended.2 ⟨own, reference, hload, hmem, hlocated⟩)

theorem reaches_of_mem_extended {w : Workspace} {path next last : String}
    (h : next ∈ extended w path) (hrest : Reaches w next last) : Reaches w path last := by
  obtain ⟨d, reference, hload, hmem, hlocated⟩ := mem_extended.1 h
  exact .step hload hmem hlocated hrest

theorem Acyclic.next {w : Workspace} {path next : String} (h : Acyclic w path)
    (hnext : next ∈ extended w path) : Acyclic w next := by
  intro mid last hmid hlast
  exact h mid last (reaches_of_mem_extended hnext hmid) hlast

/-- What a reference leads to never comes back to the document. -/
theorem Acyclic.fresh {w : Workspace} {path next last : String} {p q : Place} (h : Acyclic w path)
    (hp : w.fileAt? path = some p) (hnext : next ∈ extended w path) (hlast : Reaches w next last)
    (hq : w.locate last = .ok q) : q ≠ p := by
  rintro rfl
  exact h path last (.refl path) ⟨next, hnext, hlast⟩ (hq.trans (locate_of_fileAt? hp).symm)

/-- Ranks that fall along every reference among finitely many paths rule out cycles. -/
theorem Acyclic.of_rank {w : Workspace} {path : String} (paths : List String)
    (rank : Except LookupError Place → Nat) (hpath : path ∈ paths)
    (hfall : ∀ p ∈ paths, ∀ q ∈ extended w p, q ∈ paths ∧ rank (w.locate q) < rank (w.locate p)) :
    Acyclic w path := by
  have hreach : ∀ {p last : String}, Reaches w p last → p ∈ paths →
      last ∈ paths ∧ rank (w.locate last) ≤ rank (w.locate p) := by
    intro p last h
    induction h with
    | refl p => exact fun hp => ⟨hp, le_rfl⟩
    | step loads mem located _ ih =>
        intro hp
        obtain ⟨hnext, hlt⟩ := hfall _ hp _ (mem_extended.2 ⟨_, _, loads, mem, located⟩)
        obtain ⟨hlast, hle⟩ := ih hnext
        exact ⟨hlast, hle.trans hlt.le⟩
  rintro mid last hmid ⟨next, hnext, hlast⟩ hsame
  obtain ⟨hnext', hlt⟩ := hfall mid (hreach hmid hpath).1 next hnext
  obtain ⟨-, hle⟩ := hreach hlast hnext'
  rw [hsame] at hle
  omega

section Loading

variable {w : Workspace} {chain : List Place} {path : String}

/-- A document that does not load, or is being loaded, contributes nothing. -/
theorem loadChain?_eq_none (fuel : Nat)
    (h : ∀ p own, w.fileAt? path = some p → loadAt? w p = some own → p ∈ chain) :
    loadChain? w fuel chain path = none := by
  by_contra hsome
  obtain ⟨d, hd⟩ := Option.ne_none_iff_exists'.1 hsome
  obtain ⟨p, own, hp, hfresh, hown⟩ := fresh_of_loadChain? hd
  exact hfresh (h p own hp hown)

theorem loadChain?_of_not_load? (fuel : Nat) (h : load? w path = none) :
    loadChain? w fuel chain path = none := by
  refine loadChain?_eq_none fuel fun p own hp hown => ?_
  rw [load?_of_fileAt? hp, hown] at h
  cases h

/-- More fuel than there are files left changes nothing. -/
theorem loadChain?_fuel (n : Nat) :
    ∀ (m : Nat) (chain : List Place) (path : String), chain.Nodup →
      (∀ q ∈ chain, w.tree.hasFile q = true) → w.tree.files.length + 1 ≤ n + chain.length →
      w.tree.files.length + 1 ≤ m + chain.length →
      loadChain? w n chain path = loadChain? w m chain path := by
  induction n with
  | zero =>
      intro m chain path hnodup hfiles hn _
      have hle := length_chain_le hnodup hfiles
      omega
  | succ n ih =>
      intro m chain path hnodup hfiles hn hm
      cases m with
      | zero =>
          have hle := length_chain_le hnodup hfiles
          omega
      | succ m =>
          cases hload : load? w path with
          | none => rw [loadChain?_of_not_load? _ hload, loadChain?_of_not_load? _ hload]
          | some own =>
              obtain ⟨p, hp⟩ := exists_fileAt?_of_load? hload
              rw [load?_of_fileAt? hp] at hload
              by_cases hmem : p ∈ chain
              · have hcut : ∀ q own', w.fileAt? path = some q → loadAt? w q = some own' →
                    q ∈ chain := by
                  intro q own' hq _
                  rw [hp] at hq
                  exact Option.some.inj hq ▸ hmem
                rw [loadChain?_eq_none _ hcut, loadChain?_eq_none _ hcut]
              · have hfile : w.tree.hasFile p = true := (Workspace.fileOf?_eq_some_iff.1 hp).2
                have hbelow : loadChain? w n (p :: chain) = loadChain? w m (p :: chain) := by
                  funext next
                  refine ih m (p :: chain) next (List.nodup_cons.2 ⟨hmem, hnodup⟩)
                    (List.forall_mem_cons.2 ⟨hfile, hfiles⟩) ?_ ?_
                  · rw [List.length_cons]
                    omega
                  · rw [List.length_cons]
                    omega
                rw [loadChain?_succ hp hmem hload, loadChain?_succ hp hmem hload, hbelow]

/-- Where no document of the chain is reached, the chain makes no difference. -/
theorem loadChain?_eq_mergePlain? (fuel : Nat) :
    ∀ (chain : List Place) (path : String), Acyclic w path →
      (∀ last p, Reaches w path last → w.locate last = .ok p → p ∉ chain) →
      loadChain? w fuel chain path = mergePlain? w fuel path := by
  induction fuel with
  | zero =>
      intro chain path _ _
      rfl
  | succ fuel ih =>
      intro chain path hacyclic hchain
      rw [mergePlain?]
      cases hload : load? w path with
      | none => rw [loadChain?_of_not_load? _ hload, Option.map_none]
      | some own =>
          obtain ⟨p, hp⟩ := exists_fileAt?_of_load? hload
          have hfresh : p ∉ chain := hchain path p (.refl path) (locate_of_fileAt? hp)
          rw [loadChain?_succ hp hfresh (by rw [← load?_of_fileAt? hp, hload]), Option.map_some]
          refine congrArg (fun parents => some (own.overlay parents))
            (filterMap_inherited_congr hload fun next hnext => ?_)
          refine ih (p :: chain) next (hacyclic.next hnext) fun last q hlast hq => ?_
          rw [List.mem_cons, not_or]
          exact ⟨hacyclic.fresh hp hnext hlast hq,
            hchain last q (reaches_of_mem_extended hnext hlast) hq⟩

/-- A cycle apart, a document that loads comes over what its references load to. -/
theorem loadMerged?_eq_overlay {own : Document} (hown : load? w path = some own)
    (hacyclic : Acyclic w path) :
    loadMerged? w path = some (own.overlay (own.inherited.filterMap fun reference =>
      (locateInherited? w (directoryOf path) reference).bind (loadMerged? w))) := by
  obtain ⟨p, hp⟩ := exists_fileAt?_of_load? hown
  have hfile : w.tree.hasFile p = true := (Workspace.fileOf?_eq_some_iff.1 hp).2
  have hload : loadAt? w p = some own := by rw [← load?_of_fileAt? hp, hown]
  rw [loadMerged?, loadChain?_succ hp List.not_mem_nil hload]
  refine congrArg (fun parents => some (own.overlay parents))
    (filterMap_inherited_congr hown fun next hnext => ?_)
  have hpast : ∀ last q, Reaches w next last → w.locate last = .ok q → q ∉ [p] := by
    intro last q hlast hq
    exact List.mem_singleton.not.2 (hacyclic.fresh hp hnext hlast hq)
  calc loadChain? w w.tree.files.length [p] next
      = loadChain? w (w.tree.files.length + 1) [p] next :=
        loadChain?_fuel _ _ [p] next (by simp) (by simp [hfile]) (by simp) (by simp)
    _ = mergePlain? w (w.tree.files.length + 1) next :=
        loadChain?_eq_mergePlain? _ [p] next (hacyclic.next hnext) hpast
    _ = loadMerged? w next :=
        (loadChain?_eq_mergePlain? _ [] next (hacyclic.next hnext) (by simp)).symm

/-- Loading fails exactly if the document itself does not load. -/
theorem loadMerged?_eq_none_iff : loadMerged? w path = none ↔ load? w path = none := by
  constructor
  · intro hnone
    by_contra hload
    obtain ⟨own, hown⟩ := Option.ne_none_iff_exists'.1 hload
    obtain ⟨p, hp⟩ := exists_fileAt?_of_load? hown
    rw [load?_of_fileAt? hp] at hown
    rw [loadMerged?, loadChain?_succ hp List.not_mem_nil hown] at hnone
    cases hnone
  · exact loadChain?_of_not_load? _

theorem nodup_keys_of_loadMerged? {d : Document} (h : loadMerged? w path = some d) :
    d.keys.Nodup := by
  obtain ⟨p, own, hp, hfresh, hown⟩ := fresh_of_loadChain? h
  rw [loadMerged?, loadChain?_succ hp hfresh hown] at h
  obtain rfl := Option.some.inj h
  exact nodup_keys_overlay _ _

end Loading

/-- Where no document leads back to itself, a document that loads is loaded as it would be without
regard to cycles. The targets of a key are its own, or those of the last reference whose merged
document has the key. The base directory is its own or the last one that is inherited. The keys
stand where they first occur, those of the references first. A reference contributes nothing exactly
if it leads nowhere or to a document that does not load. -/
theorem loadMerged?_acyclic (w : Workspace) (path : String) (own : Document)
    (hown : load? w path = some own) (hacyclic : Acyclic w path) :
    let parent? := fun reference =>
      (locateInherited? w (directoryOf path) reference).bind (loadMerged? w)
    let parents := own.inherited.filterMap parent?
    (∀ fuel, w.tree.files.length < fuel → mergePlain? w fuel path = loadMerged? w path) ∧
      (∀ reference, parent? reference = none ↔
        ∀ next, locateInherited? w (directoryOf path) reference = some next →
          load? w next = none) ∧
      ∃ d, loadMerged? w path = some d ∧ d.inherited = own.inherited ∧
        (∀ key, d.get? key = (own.get? key).or (parents.reverse.findSome? (·.get? key))) ∧
        d.baseUrl = own.baseUrl.or (parents.reverse.findSome? (·.baseUrl)) ∧
        d.keys = (parents.flatMap keys ++ own.keys).eraseDups := by
  intro parent? parents
  have hplain : ∀ fuel, w.tree.files.length < fuel →
      mergePlain? w fuel path = loadMerged? w path := by
    intro fuel hfuel
    rw [← loadChain?_eq_mergePlain? fuel [] path hacyclic (by simp)]
    exact loadChain?_fuel _ _ [] path List.nodup_nil (by simp) hfuel (by simp)
  have hnothing : ∀ reference, parent? reference = none ↔
      ∀ next, locateInherited? w (directoryOf path) reference = some next →
        load? w next = none := by
    intro reference
    rw [Option.bind_eq_none_iff]
    simp only [loadMerged?_eq_none_iff]
  have hnodup : ∀ parent ∈ parents, parent.keys.Nodup := by
    intro parent hparent
    obtain ⟨reference, -, hbind⟩ := List.mem_filterMap.1 hparent
    obtain ⟨next, -, hloaded⟩ := Option.bind_eq_some_iff.1 hbind
    exact nodup_keys_of_loadMerged? hloaded
  exact ⟨hplain, hnothing, own.overlay parents, loadMerged?_eq_overlay hown hacyclic, rfl,
    get?_overlay (nodup_keys_of_load? hown) hnodup, baseUrl_overlay own parents,
    keys_overlay own parents⟩

/-- Two documents that extend a third one. The first of them maps a pattern that the third maps as
well, and a reference between the two leads nowhere. -/
def diamond : Workspace where
  tree.files :=
    [(["a.json"], "\x7b\"extends\":[\"b\",\"none\",\"c\"]\x7d".toUTF8),
     (["b.json"],
      "\x7b\"extends\":\"d\",\"compilerOptions\":\x7b\"paths\":\x7b\"@\":[]\x7d\x7d\x7d".toUTF8),
     (["c.json"],
      "\x7b\"extends\":\"d\",\"compilerOptions\":\x7b\"baseUrl\":\"lib\"\x7d\x7d".toUTF8),
     (["d.json"],
      "\x7b\"compilerOptions\":\x7b\"paths\":\x7b\"~\":[],\"@\":[\"d\"]\x7d\x7d\x7d".toUTF8)]
  tree.directories := []
  cwd := []

/-- The last reference wins with what it inherits, though that document was met before. -/
theorem loadMerged?_acyclic_diamond :
    load? diamond "a.json" = some ⟨[], none, ["b", "none", "c"]⟩ ∧ Acyclic diamond "a.json" ∧
      ∀ fuel, 4 < fuel → mergePlain? diamond fuel "a.json" =
        some ⟨[("~", []), ("@", ["d"])], some "lib", ["b", "none", "c"]⟩ := by
  have hextended : extended diamond "a.json" = ["b.json", "c.json"] ∧
      extended diamond "b.json" = ["d.json"] ∧ extended diamond "c.json" = ["d.json"] ∧
      extended diamond "d.json" = [] := by
    decide +kernel
  have hplaces : diamond.locate "a.json" = .ok ["a.json"] ∧
      diamond.locate "b.json" = .ok ["b.json"] ∧ diamond.locate "c.json" = .ok ["c.json"] ∧
      diamond.locate "d.json" = .ok ["d.json"] := by
    decide +kernel
  have hacyclic : Acyclic diamond "a.json" :=
    .of_rank ["a.json", "b.json", "c.json", "d.json"]
      (fun place => if place = .ok ["a.json"] then 2 else if place = .ok ["d.json"] then 0 else 1)
      (by simp) (by simp [hextended, hplaces])
  have hown : load? diamond "a.json" = some ⟨[], none, ["b", "none", "c"]⟩ := by
    decide +kernel
  have hmerged : loadMerged? diamond "a.json" =
      some ⟨[("~", []), ("@", ["d"])], some "lib", ["b", "none", "c"]⟩ := by
    decide +kernel
  refine ⟨hown, hacyclic, fun fuel hfuel => ?_⟩
  rw [(loadMerged?_acyclic diamond "a.json" _ hown hacyclic).1 fuel hfuel, hmerged]

end Document

end SliceLint
