import Mathlib.Data.List.Perm.Subperm
import SliceLint.Document.Inheritance
import SliceLint.Proofs.FileTree

set_option autoImplicit false

/-! # What a document inherits

A document that is among those being loaded contributes nothing, so what a document contributes
depends on the chain above it. Still no key is lost: a document that can be reached at all can be
reached without meeting a document twice, and along such a way nothing is cut off. The keys of a
merged document are therefore those of all documents that can be reached from it
(`loadMerged?_keys`).

References are followed between paths, but chains hold places. The two views agree because a
reference leads to the same place from every path of a document (`bind_locateInherited?`). -/

namespace SliceLint

namespace Document

/-- The path patterns that a document maps. -/
def keys (d : Document) : List String :=
  d.paths.map (·.1)

/-! ## Keys of merged maps -/

theorem eraseDups_concat (xs : List String) (x : String) :
    (xs ++ [x]).eraseDups = if x ∈ xs then xs.eraseDups else xs.eraseDups ++ [x] := by
  rw [List.eraseDups_append]
  by_cases hx : x ∈ xs
  · simp [hx, List.removeAll]
  · simp [hx, List.removeAll, List.eraseDups_cons]

theorem keys_setPath (key : String) (targets : List String) (paths : List (String × List String)) :
    (setPath key targets paths).map (·.1) =
      if key ∈ paths.map (·.1) then paths.map (·.1) else paths.map (·.1) ++ [key] := by
  induction paths with
  | nil => simp [setPath]
  | cons entry rest ih =>
      obtain ⟨k, ts⟩ := entry
      rw [setPath]
      by_cases hk : k = key
      · simp [hk]
      · have hk' : ¬ key = k := fun he => hk he.symm
        rw [if_neg hk, List.map_cons, ih, List.map_cons]
        by_cases hmem : key ∈ rest.map (·.1)
        · rw [if_pos hmem, if_pos (List.mem_cons_of_mem k hmem)]
        · rw [if_neg hmem, if_neg (by simpa [hk'] using hmem), List.cons_append]

/-- A map that has the keys of a list, each where it first occurs, keeps them before new ones. -/
theorem keys_extendPaths {base more : List (String × List String)} {xs : List String}
    (h : base.map (·.1) = xs.eraseDups) :
    (extendPaths base more).map (·.1) = (xs ++ more.map (·.1)).eraseDups := by
  induction more generalizing base xs with
  | nil => simpa [extendPaths] using h
  | cons entry more ih =>
      have hstep : (setPath entry.1 entry.2 base).map (·.1) = (xs ++ [entry.1]).eraseDups := by
        rw [keys_setPath, h, eraseDups_concat]
        simp only [List.mem_eraseDups]
      have hrest := ih hstep
      rw [List.append_assoc, List.singleton_append] at hrest
      exact hrest

theorem mergeInherited_concat (parents : List Document) (parent : Document) :
    mergeInherited (parents ++ [parent]) =
      (extendPaths (mergeInherited parents).1 parent.paths,
        parent.baseUrl.or (mergeInherited parents).2) := by
  rw [mergeInherited, List.foldl_append]
  rfl

theorem keys_mergeInherited (parents : List Document) :
    (mergeInherited parents).1.map (·.1) = (parents.flatMap keys).eraseDups := by
  induction parents using List.reverseRecOn with
  | nil => rfl
  | append_singleton parents parent ih =>
      rw [mergeInherited_concat, keys_extendPaths ih, List.flatMap_append, List.flatMap_singleton]
      rfl

/-- The keys of a document over others stand where they first occur, those of the others first. -/
theorem keys_overlay (d : Document) (parents : List Document) :
    (d.overlay parents).keys = (parents.flatMap keys ++ d.keys).eraseDups :=
  keys_extendPaths (keys_mergeInherited parents)

theorem mem_keys_overlay {k : String} {d : Document} {parents : List Document} :
    k ∈ (d.overlay parents).keys ↔ k ∈ d.keys ∨ ∃ parent ∈ parents, k ∈ parent.keys := by
  rw [keys_overlay, List.mem_eraseDups, List.mem_append, List.mem_flatMap, or_comm]

/-! ## References between places -/

/-- The document in the file at a place. -/
def loadAt? (w : Workspace) (p : Place) : Option Document :=
  ((w.tree.contents? p).bind String.fromUTF8?).bind parse?

/-- The place that a reference names, seen from a directory. -/
def inheritedFrom? (w : Workspace) (dir : Place) (reference : String) : Option Place :=
  (w.fileFrom? dir reference).or
    (if Text.endsWith ".json" reference then none else w.fileFrom? dir (reference ++ ".json"))

theorem locate_of_fileAt? {w : Workspace} {path : String} {p : Place}
    (h : w.fileAt? path = some p) : w.locate path = .ok p :=
  (Workspace.fileOf?_eq_some_iff.1 h).1

theorem load?_of_fileAt? {w : Workspace} {path : String} {p : Place}
    (h : w.fileAt? path = some p) : load? w path = loadAt? w p := by
  simp only [load?, loadAt?, Workspace.readText?, locate_of_fileAt? h]

/-- Only regular files hold documents. -/
theorem exists_fileAt?_of_load? {w : Workspace} {path : String} {d : Document}
    (h : load? w path = some d) : ∃ p, w.fileAt? path = some p := by
  obtain ⟨text, htext, -⟩ := Option.bind_eq_some_iff.1 h
  unfold Workspace.readText? at htext
  split at htext
  · next p hlocate =>
      refine ⟨p, Workspace.fileOf?_eq_some_iff.2 ⟨hlocate, ?_⟩⟩
      obtain ⟨contents, hcontents, -⟩ := Option.bind_eq_some_iff.1 htext
      obtain ⟨f, hf, -⟩ := Option.map_eq_some_iff.1 hcontents
      have hplace : f.1 = p := by simpa using List.find?_some hf
      rw [FileTree.hasFile, List.any_eq_true]
      exact ⟨f, List.mem_of_find?_eq_some hf, by simp [hplace]⟩
  · cases htext

/-- A reference leads to a regular file. -/
theorem exists_fileAt?_of_locateInherited? {w : Workspace} {dir reference path : String}
    (h : locateInherited? w dir reference = some path) : ∃ p, w.fileAt? path = some p := by
  have hfile : w.isFile path = true := by
    simp only [locateInherited?] at h
    split at h
    · next hfile =>
        obtain rfl := Option.some.inj h
        exact hfile
    · split at h
      · cases h
      · split at h
        · next hfile =>
            obtain rfl := Option.some.inj h
            exact hfile
        · cases h
  rw [Workspace.isFile_eq] at hfile
  exact Option.isSome_iff_exists.1 hfile

/-- From any path of a document, a reference leads to the place that it names from the document's
directory. -/
theorem bind_locateInherited? {w : Workspace} {path : String} {p : Place} (ht : w.tree.Proper)
    (h : w.fileAt? path = some p) (reference : String) :
    (locateInherited? w (directoryOf path) reference).bind w.fileAt? =
      inheritedFrom? w p.dropLast reference := by
  have hjoin := Workspace.fileAt?_join ht h
  unfold locateInherited? inheritedFrom? directoryOf
  rw [← hjoin, ← hjoin]
  simp only [Workspace.isFile_eq]
  cases hfirst : w.fileAt? (Path.join ((Path.parent? path).getD "") reference) with
  | some q => simp [hfirst]
  | none =>
      by_cases hjson : Text.endsWith ".json" reference = true
      · simp [hjson]
      · cases hsecond :
            w.fileAt? (Path.join ((Path.parent? path).getD "") (reference ++ ".json")) with
        | some q => simp [hjson, hsecond]
        | none => simp [hjson]

/-! ## Ways between documents -/

/-- A way from the document at one place to that at another, along references between documents
that load, none of which is at a place of `chain`. -/
inductive Leads (w : Workspace) (chain : List Place) : Place → Place → Prop where
  | here {p : Place} {d : Document} (fresh : p ∉ chain) (loads : loadAt? w p = some d) :
      Leads w chain p p
  | step {p q r : Place} {d : Document} {reference : String} (fresh : p ∉ chain)
      (loads : loadAt? w p = some d) (mem : reference ∈ d.inherited)
      (found : inheritedFrom? w p.dropLast reference = some q) (rest : Leads w chain q r) :
      Leads w chain p r

namespace Leads

variable {w : Workspace} {chain : List Place} {p q : Place}

theorem start (h : Leads w chain p q) : p ∉ chain ∧ ∃ d, loadAt? w p = some d := by
  cases h with
  | here fresh loads => exact ⟨fresh, _, loads⟩
  | step fresh loads _ _ _ => exact ⟨fresh, _, loads⟩

theorem of_cons {x : Place} (h : Leads w (x :: chain) p q) : Leads w chain p q := by
  induction h with
  | here fresh loads => exact .here (List.not_mem_of_not_mem_cons fresh) loads
  | step fresh loads mem found _ ih =>
      exact .step (List.not_mem_of_not_mem_cons fresh) loads mem found ih

/-- A way either avoids a place or can be entered anew behind its last visit there. -/
theorem avoid_or_restart (x : Place) (h : Leads w chain p q) :
    Leads w (x :: chain) p q ∨ q = x ∨
      ∃ d reference next, loadAt? w x = some d ∧ reference ∈ d.inherited ∧
        inheritedFrom? w x.dropLast reference = some next ∧ Leads w (x :: chain) next q := by
  induction h with
  | @here p d fresh loads =>
      by_cases hx : p = x
      · exact Or.inr (Or.inl hx)
      · exact Or.inl (.here (by simp [hx, fresh]) loads)
  | @step p next q d reference fresh loads mem found _ ih =>
      rcases ih with ih | ih
      · by_cases hx : p = x
        · -- the rest avoids `x`, so this was the last visit
          subst hx
          exact Or.inr (Or.inr ⟨d, reference, next, loads, mem, found, ih⟩)
        · exact Or.inl (.step (by simp [hx, fresh]) loads mem found ih)
      · exact Or.inr ih

/-- A way never has to come back to where it starts. -/
theorem eq_or_next (h : Leads w chain p q) :
    q = p ∨ ∃ d reference next, loadAt? w p = some d ∧ reference ∈ d.inherited ∧
      inheritedFrom? w p.dropLast reference = some next ∧ Leads w (p :: chain) next q := by
  rcases h.avoid_or_restart p with hself | hrest
  · exact absurd List.mem_cons_self hself.start.1
  · exact hrest

end Leads

/-! ## Loading -/

/-- Loading succeeds only for a document that loads and is not being loaded already. -/
theorem fresh_of_loadChain? {w : Workspace} {fuel : Nat} {chain : List Place} {path : String}
    {d : Document} (h : loadChain? w fuel chain path = some d) :
    ∃ p own, w.fileAt? path = some p ∧ p ∉ chain ∧ loadAt? w p = some own := by
  cases fuel with
  | zero => cases h
  | succ fuel =>
      rw [loadChain?] at h
      split at h
      · cases h
      · next p hlocate =>
          split at h
          · cases h
          · next hfresh =>
              split at h
              · cases h
              · next own hload =>
                  obtain ⟨q, hq⟩ := exists_fileAt?_of_load? hload
                  have hpq : p = q := by
                    rw [locate_of_fileAt? hq] at hlocate
                    exact (Except.ok.inj hlocate).symm
                  subst hpq
                  exact ⟨p, own, hq, hfresh, by rw [← load?_of_fileAt? hq, hload]⟩

/-- What loading a fresh document gives: the document over what its references contribute. -/
theorem loadChain?_succ {w : Workspace} {fuel : Nat} {chain : List Place} {path : String}
    {p : Place} {own : Document} (hpath : w.fileAt? path = some p) (hfresh : p ∉ chain)
    (hown : loadAt? w p = some own) :
    loadChain? w (fuel + 1) chain path =
      some (own.overlay (own.inherited.filterMap fun reference =>
        (locateInherited? w (directoryOf path) reference).bind
          (loadChain? w fuel (p :: chain)))) := by
  rw [← load?_of_fileAt? hpath] at hown
  simp only [loadChain?, locate_of_fileAt? hpath, hfresh, if_false, hown]

/-- A chain of different regular files is no longer than there are files. -/
theorem length_chain_le {t : FileTree} {chain : List Place} (hnodup : chain.Nodup)
    (hfiles : ∀ p ∈ chain, t.hasFile p = true) : chain.length ≤ t.files.length := by
  have hsubset : chain ⊆ t.files.map (·.1) := fun p hp => FileTree.hasFile_iff.1 (hfiles p hp)
  have hle := (hnodup.subperm hsubset).length_le
  rwa [List.length_map] at hle

/-- Below a chain, a fresh document that loads has the keys of all documents that it leads to past
the chain. The fuel cannot run out before the chain holds every file. -/
theorem loadChain?_keys {w : Workspace} (ht : w.tree.Proper) (fuel : Nat) :
    ∀ (chain : List Place) (path : String) (p : Place) (own : Document),
      w.fileAt? path = some p → p ∉ chain → loadAt? w p = some own →
      chain.Nodup → (∀ q ∈ chain, w.tree.hasFile q = true) →
      w.tree.files.length + 1 ≤ fuel + chain.length →
      ∃ d, loadChain? w fuel chain path = some d ∧
        ∀ key, key ∈ d.keys ↔
          ∃ q dq, Leads w chain p q ∧ loadAt? w q = some dq ∧ key ∈ dq.keys := by
  induction fuel with
  | zero =>
      intro chain path p own _ _ _ hnodup hfiles hfuel
      -- the chain would be longer than there are files
      have hle := length_chain_le hnodup hfiles
      omega
  | succ fuel ih =>
      intro chain path p own hpath hfresh hown hnodup hfiles hfuel
      have hfile : w.tree.hasFile p = true := (Workspace.fileOf?_eq_some_iff.1 hpath).2
      have hbelow := fun next path' own' hpath' hfresh' hown' =>
        ih (p :: chain) path' next own' hpath' hfresh' hown' (List.nodup_cons.2 ⟨hfresh, hnodup⟩)
          (List.forall_mem_cons.2 ⟨hfile, hfiles⟩) (by rw [List.length_cons]; omega)
      refine ⟨_, loadChain?_succ hpath hfresh hown, fun key => ?_⟩
      rw [mem_keys_overlay]
      constructor
      · rintro (hkey | ⟨parent, hparent, hkey⟩)
        · exact ⟨p, own, .here hfresh hown, hown, hkey⟩
        · obtain ⟨reference, hmem, hbind⟩ := List.mem_filterMap.1 hparent
          obtain ⟨path', hlocated, hloaded⟩ := Option.bind_eq_some_iff.1 hbind
          obtain ⟨next, own', hpath', hfresh', hown'⟩ := fresh_of_loadChain? hloaded
          obtain ⟨d, hd, hkeys⟩ := hbelow next path' own' hpath' hfresh' hown'
          obtain rfl : d = parent := by
            rw [hloaded] at hd
            exact (Option.some.inj hd).symm
          obtain ⟨q, dq, hleads, hdq, hq⟩ := (hkeys key).1 hkey
          have hfound : inheritedFrom? w p.dropLast reference = some next := by
            rw [← bind_locateInherited? ht hpath, hlocated, Option.bind_some, hpath']
          exact ⟨q, dq, .step hfresh hown hmem hfound hleads.of_cons, hdq, hq⟩
      · rintro ⟨q, dq, hleads, hdq, hkey⟩
        -- a way that comes back here would be cut off below, so one that does not is taken
        rcases hleads.eq_or_next with rfl | ⟨d, reference, next, hd, hmem, hfound, hrest⟩
        · rw [hown] at hdq
          obtain rfl := Option.some.inj hdq
          exact Or.inl hkey
        · rw [hown] at hd
          obtain rfl := Option.some.inj hd
          rw [← bind_locateInherited? ht hpath] at hfound
          obtain ⟨path', hlocated, hpath'⟩ := Option.bind_eq_some_iff.1 hfound
          obtain ⟨hfresh', own', hown'⟩ := hrest.start
          obtain ⟨parent, hloaded, hkeys⟩ := hbelow next path' own' hpath' hfresh' hown'
          refine Or.inr ⟨parent, List.mem_filterMap.2 ⟨reference, hmem, ?_⟩, ?_⟩
          · rw [hlocated, Option.bind_some, hloaded]
          · exact (hkeys key).2 ⟨q, dq, hrest, hdq, hkey⟩

/-! ## Reachable documents -/

/-- The documents that are reached from a path along references, through documents that load. Each
reference is located from the directory of the document that has it. -/
inductive Reaches (w : Workspace) : String → String → Prop where
  | refl (path : String) : Reaches w path path
  | step {path next last : String} {d : Document} {reference : String}
      (loads : load? w path = some d) (mem : reference ∈ d.inherited)
      (located : locateInherited? w (directoryOf path) reference = some next)
      (rest : Reaches w next last) : Reaches w path last

theorem leads_of_reaches {w : Workspace} {path last : String} {d : Document} (ht : w.tree.Proper)
    (h : Reaches w path last) (hlast : load? w last = some d) :
    ∀ p, w.fileAt? path = some p → ∃ q, Leads w [] p q ∧ loadAt? w q = some d := by
  induction h with
  | refl path =>
      intro p hp
      rw [load?_of_fileAt? hp] at hlast
      exact ⟨p, .here List.not_mem_nil hlast, hlast⟩
  | step loads mem located _ ih =>
      intro p hp
      obtain ⟨next, hnext⟩ := exists_fileAt?_of_locateInherited? located
      obtain ⟨q, hleads, hq⟩ := ih hlast next hnext
      rw [load?_of_fileAt? hp] at loads
      have hfound := bind_locateInherited? ht hp
      refine ⟨q, .step List.not_mem_nil loads mem ?_ hleads, hq⟩
      rw [← hfound, located, Option.bind_some, hnext]

theorem reaches_of_leads {w : Workspace} {p q : Place} {d : Document} (ht : w.tree.Proper)
    (h : Leads w [] p q) (hq : loadAt? w q = some d) :
    ∀ path, w.fileAt? path = some p → ∃ last, Reaches w path last ∧ load? w last = some d := by
  induction h with
  | here _ _ =>
      intro path hpath
      exact ⟨path, .refl path, by rw [load?_of_fileAt? hpath, hq]⟩
  | step _ loads mem found _ ih =>
      intro path hpath
      rw [← bind_locateInherited? ht hpath] at found
      obtain ⟨next, hlocated, hnext⟩ := Option.bind_eq_some_iff.1 found
      obtain ⟨last, hreaches, hlast⟩ := ih hq next hnext
      rw [← load?_of_fileAt? hpath] at loads
      exact ⟨last, .step loads mem hlocated hreaches, hlast⟩

/-- Loading a document with everything that it extends fails exactly if the document itself does not
load. Otherwise the keys of the result are those of the documents that are reached from it, however
the references run. -/
theorem loadMerged?_keys (w : Workspace) (path : String) (ht : w.tree.Proper) :
    (loadMerged? w path = none ↔ load? w path = none) ∧
      ∀ d, loadMerged? w path = some d → ∀ key, key ∈ d.keys ↔
        ∃ last d', Reaches w path last ∧ load? w last = some d' ∧ key ∈ d'.keys := by
  have hmerged : ∀ own, load? w path = some own → ∃ p d, w.fileAt? path = some p ∧
      loadMerged? w path = some d ∧ ∀ key, key ∈ d.keys ↔
        ∃ q dq, Leads w [] p q ∧ loadAt? w q = some dq ∧ key ∈ dq.keys := by
    intro own hown
    obtain ⟨p, hp⟩ := exists_fileAt?_of_load? hown
    rw [load?_of_fileAt? hp] at hown
    obtain ⟨d, hd, hkeys⟩ := loadChain?_keys ht (w.tree.files.length + 1) [] path p own hp
      List.not_mem_nil hown List.nodup_nil (by simp) (by simp)
    exact ⟨p, d, hp, hd, hkeys⟩
  constructor
  · constructor
    · intro hnone
      by_contra hload
      obtain ⟨own, hown⟩ := Option.ne_none_iff_exists'.1 hload
      obtain ⟨p, d, -, hd, -⟩ := hmerged own hown
      rw [hnone] at hd
      cases hd
    · intro hnone
      by_contra hload
      obtain ⟨d, hd⟩ := Option.ne_none_iff_exists'.1 hload
      obtain ⟨p, own, hp, -, hown⟩ := fresh_of_loadChain? hd
      rw [load?_of_fileAt? hp, hown] at hnone
      cases hnone
  · intro d hd key
    obtain ⟨p, own, hp, -, hown⟩ := fresh_of_loadChain? hd
    obtain ⟨p', d', hp', hd', hkeys⟩ := hmerged own (by rw [load?_of_fileAt? hp, hown])
    rw [hp] at hp'
    rw [hd] at hd'
    obtain rfl := Option.some.inj hp'
    obtain rfl := Option.some.inj hd'
    refine (hkeys key).trans ⟨?_, ?_⟩
    · rintro ⟨q, dq, hleads, hdq, hkey⟩
      obtain ⟨last, hreaches, hlast⟩ := reaches_of_leads ht hleads hdq path hp
      exact ⟨last, dq, hreaches, hlast, hkey⟩
    · rintro ⟨last, dlast, hreaches, hlast, hkey⟩
      obtain ⟨q, hleads, hq⟩ := leads_of_reaches ht hreaches hlast p hp
      exact ⟨q, dlast, hleads, hq, hkey⟩

/-- Three documents that extend each other in a circle, with a second way from the first to the
last and a reference that leads nowhere. -/
def circle : Workspace where
  tree.files :=
    [(["a.json"], "\x7b\"extends\":[\"b\",\"none\",\"./c.json\"]\x7d".toUTF8),
     (["b.json"],
      "\x7b\"extends\":\"c\",\"compilerOptions\":\x7b\"paths\":\x7b\"@b\":[]\x7d\x7d\x7d".toUTF8),
     (["c.json"],
      "\x7b\"extends\":\"a\",\"compilerOptions\":\x7b\"paths\":\x7b\"@c\":[]\x7d\x7d\x7d".toUTF8)]
  tree.directories := []
  cwd := []

theorem loadMerged?_keys_circle :
    circle.tree.Proper ∧
      loadMerged? circle "a.json" =
        some ⟨[("@c", []), ("@b", [])], none, ["b", "none", "./c.json"]⟩ ∧
      ∀ key, key ∈ ["@c", "@b"] ↔
        ∃ last d', Reaches circle "a.json" last ∧ load? circle last = some d' ∧
          key ∈ d'.keys := by
  have hproper : circle.tree.Proper := by decide +kernel
  have hmerged : loadMerged? circle "a.json" =
      some ⟨[("@c", []), ("@b", [])], none, ["b", "none", "./c.json"]⟩ := by
    decide +kernel
  exact ⟨hproper, hmerged, (loadMerged?_keys circle "a.json" hproper).2 _ hmerged⟩

end Document

end SliceLint
