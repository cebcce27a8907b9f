import SliceLint.Proofs.AcyclicInheritance
import SliceLint.Proofs.Steps

set_option autoImplicit false

/-! # Loading step by step

Loading a document with all that it extends, one step at a time: a stack of open documents, and one
chain of places that a document is pushed to when it is opened and popped from when it is closed.
Nothing bounds the run in advance. It ends nevertheless, with the document that `loadMerged?` gives
(`Document.loadMerged?_terminates`), since a place is pushed only if it is not in the chain and
there are no more places than files.

Every step is one of six (`Loader.Move`). What holds at every moment is read off them
(`Loader.Move.sound`); that a load returns to the chain and the stack it began with is shown by
following them (`Loader.returns_call`). -/

namespace SliceLint

open Document

/-- An open document, with the references that are still to be followed and the documents that the
others led to. -/
structure Loader.Frame where
  path : String
  document : Document
  pending : List String
  parents : List Document
deriving DecidableEq

/-- What comes next: a load begins, the innermost open document goes on, or a load has ended. -/
inductive Loader.Control where
  | call (path : String)
  | next
  | answer (result : Option Document)
deriving DecidableEq

/-- A load at one moment. The innermost document comes first in the chain and on the stack. -/
structure Loader where
  chain : List Place
  frames : List Loader.Frame
  control : Loader.Control
deriving DecidableEq

namespace Loader

def start (path : String) : Loader :=
  ⟨[], [], .call path⟩

/-- Begin to load a document. -/
def enter (w : Workspace) (chain : List Place) (frames : List Frame) (path : String) : Loader :=
  match w.locate path with
  | .error _ => ⟨chain, frames, .answer none⟩
  | .ok place =>
    if chain.contains place then ⟨chain, frames, .answer none⟩
    else match load? w path with
      | none => ⟨chain, frames, .answer none⟩
      | some d => ⟨place :: chain, ⟨path, d, d.inherited, []⟩ :: frames, .next⟩

def step (w : Workspace) : Loader → Option Loader
  | ⟨chain, frames, .call path⟩ => some (enter w chain frames path)
  | ⟨chain, ⟨_, document, [], parents⟩ :: frames, .next⟩ =>
    some ⟨chain.tail, frames, .answer (some (document.overlay parents))⟩
  | ⟨chain, ⟨path, document, reference :: pending, parents⟩ :: frames, .next⟩ =>
    some ⟨chain, ⟨path, document, pending, parents⟩ :: frames,
      ((locateInherited? w (directoryOf path) reference).map Control.call).getD .next⟩
  | ⟨chain, ⟨path, document, pending, parents⟩ :: frames, .answer result⟩ =>
    some ⟨chain, ⟨path, document, pending, parents ++ result.toList⟩ :: frames, .next⟩
  | ⟨_, [], _⟩ => none

/-- How many loads are under way: one for each open document, and one that is about to begin. -/
def depth (l : Loader) : Nat :=
  match l.control with
  | .call _ => l.frames.length + 1
  | _ => l.frames.length

/-! ## The steps -/

section Enter

variable {w : Workspace} {chain : List Place} {path : String}

theorem enter_of_fresh {p : Place} {own : Document} (found : w.fileAt? path = some p)
    (fresh : p ∉ chain) (loads : loadAt? w p = some own) (frames : List Frame) :
    enter w chain frames path = ⟨p :: chain, ⟨path, own, own.inherited, []⟩ :: frames, .next⟩ := by
  have hcontains : chain.contains p = false := by simpa using fresh
  simp only [enter, locate_of_fileAt? found, hcontains, load?_of_fileAt? found, loads]
  rfl

theorem enter_of_cut
    (cut : ∀ p own, w.fileAt? path = some p → loadAt? w p = some own → p ∈ chain)
    (frames : List Frame) : enter w chain frames path = ⟨chain, frames, .answer none⟩ := by
  unfold enter
  split
  · rfl
  · next place hplace =>
      split
      · rfl
      · next hfresh =>
          split
          · rfl
          · next d hload =>
              obtain ⟨p, hp⟩ := exists_fileAt?_of_load? hload
              rw [load?_of_fileAt? hp] at hload
              rw [locate_of_fileAt? hp, Except.ok.injEq] at hplace
              exact absurd (List.contains_iff_mem.2 (cut p d hp hload)) (hplace ▸ hfresh)

end Enter

/-- What one step can do. -/
inductive Move (w : Workspace) : Loader → Loader → Prop where
  /-- A path that leads to no document, or to one in the chain, is answered at once. -/
  | refuse {chain frames path}
      (cut : ∀ p own, w.fileAt? path = some p → loadAt? w p = some own → p ∈ chain) :
      Move w ⟨chain, frames, .call path⟩ ⟨chain, frames, .answer none⟩
  /-- Any other document is opened. -/
  | opens {chain frames path p own} (found : w.fileAt? path = some p) (fresh : p ∉ chain)
      (loads : loadAt? w p = some own) :
      Move w ⟨chain, frames, .call path⟩
        ⟨p :: chain, ⟨path, own, own.inherited, []⟩ :: frames, .next⟩
  /-- A reference leads nowhere. -/
  | skip {chain frames path own reference pending parents}
      (lost : locateInherited? w (directoryOf path) reference = none) :
      Move w ⟨chain, ⟨path, own, reference :: pending, parents⟩ :: frames, .next⟩
        ⟨chain, ⟨path, own, pending, parents⟩ :: frames, .next⟩
  /-- A reference leads to a file. -/
  | follow {chain frames path own reference pending parents parent}
      (found : locateInherited? w (directoryOf path) reference = some parent) :
      Move w ⟨chain, ⟨path, own, reference :: pending, parents⟩ :: frames, .next⟩
        ⟨chain, ⟨path, own, pending, parents⟩ :: frames, .call parent⟩
  /-- An open document takes what it extends. -/
  | take {chain frames path own pending parents result} :
      Move w ⟨chain, ⟨path, own, pending, parents⟩ :: frames, .answer result⟩
        ⟨chain, ⟨path, own, pending, parents ++ result.toList⟩ :: frames, .next⟩
  /-- A document without references left is closed. -/
  | close {chain frames path own parents} :
      Move w ⟨chain, ⟨path, own, [], parents⟩ :: frames, .next⟩
        ⟨chain.tail, frames, .answer (some (own.overlay parents))⟩

theorem move_enter (w : Workspace) (chain : List Place) (frames : List Frame) (path : String) :
    Move w ⟨chain, frames, .call path⟩ (enter w chain frames path) := by
  by_cases cut : ∀ p own, w.fileAt? path = some p → loadAt? w p = some own → p ∈ chain
  · rw [enter_of_cut cut]
    exact .refuse cut
  · push Not at cut
    obtain ⟨p, own, found, loads, fresh⟩ := cut
    rw [enter_of_fresh found fresh loads]
    exact .opens found fresh loads

theorem step_eq_some_iff {w : Workspace} {l l' : Loader} : step w l = some l' ↔ Move w l l' := by
  constructor
  · intro h
    unfold step at h
    split at h
    · obtain rfl := Option.some.inj h
      exact move_enter w _ _ _
    · obtain rfl := Option.some.inj h
      exact .close
    · next path _ reference _ _ _ =>
        obtain rfl := Option.some.inj h
        cases hlocate : locateInherited? w (directoryOf path) reference with
        | none => exact .skip hlocate
        | some parent => exact .follow hlocate
    · obtain rfl := Option.some.inj h
      exact .take
    · cases h
  · intro h
    cases h with
    | refuse cut => rw [step, enter_of_cut cut]
    | opens found fresh loads => rw [step, enter_of_fresh found fresh loads]
    | skip lost => rw [step, lost, Option.map_none, Option.getD_none]
    | follow found => rw [step, found, Option.map_some, Option.getD_some]
    | take => rfl
    | close => rfl

/-! ## At every moment -/

/-- The chain holds the places of the open documents, and none of them twice. -/
structure Sound (w : Workspace) (l : Loader) : Prop where
  nodup : l.chain.Nodup
  places : l.chain.map some = l.frames.map fun frame => w.fileAt? frame.path
  loads : ∀ p ∈ l.chain, ∃ d, loadAt? w p = some d

theorem Move.sound {w : Workspace} {l l' : Loader} (h : Move w l l') (hl : Sound w l) :
    Sound w l' := by
  obtain ⟨hnodup, hplaces, hloads⟩ := hl
  cases h with
  | opens found fresh loads =>
      refine ⟨List.nodup_cons.2 ⟨fresh, hnodup⟩, ?_, List.forall_mem_cons.2 ⟨⟨_, loads⟩, hloads⟩⟩
      rw [List.map_cons, List.map_cons, found, hplaces]
  | close =>
      refine ⟨hnodup.tail, ?_, fun p hp => hloads p (List.mem_of_mem_tail hp)⟩
      rw [List.map_tail, hplaces, List.map_cons, List.tail_cons]
  | refuse | skip | follow | take => exact ⟨hnodup, hplaces, hloads⟩

theorem sound_after {w : Workspace} {path : String} {k : Nat} {l : Loader}
    (h : Steps.after (step w) k (start path) = some l) : Sound w l :=
  Steps.after_induction (fun _ _ hstep => (step_eq_some_iff.1 hstep).sound) h
    ⟨List.nodup_nil, rfl, by simp [start]⟩

namespace Sound

variable {w : Workspace} {l : Loader}

theorem hasFile (h : Sound w l) {p : Place} (hp : p ∈ l.chain) : w.tree.hasFile p = true := by
  have hmem : some p ∈ l.frames.map fun frame => w.fileAt? frame.path := by
    rw [← h.places]
    exact List.mem_map_of_mem hp
  obtain ⟨frame, -, hfile⟩ := List.mem_map.1 hmem
  exact (Workspace.fileOf?_eq_some_iff.1 hfile).2

theorem depth_le (h : Sound w l) : l.depth ≤ w.tree.files.length + 1 := by
  have hchain := length_chain_le h.nodup fun p => h.hasFile
  have hframes := congrArg List.length h.places
  rw [List.length_map, List.length_map] at hframes
  unfold depth
  split <;> omega

end Sound

/-! ## Runs that return -/

/-- A run that goes from one state to another and has at least `d` frames all the time. -/
structure Stays (w : Workspace) (d n : Nat) (l l' : Loader) : Prop where
  after : Steps.after (step w) n l = some l'
  bound : ∀ k ≤ n, ∃ m, Steps.after (step w) k l = some m ∧ d ≤ m.frames.length

/-- A run that goes from one state to another and has more frames than the first in between. -/
structure Returns (w : Workspace) (n : Nat) (l l' : Loader) : Prop where
  after : Steps.after (step w) n l = some l'
  deeper : ∀ k, 0 < k → k < n →
    ∃ m, Steps.after (step w) k l = some m ∧ l.frames.length < m.frames.length

section Runs

variable {w : Workspace} {d n n' : Nat} {l l' l'' : Loader}

theorem Stays.refl (h : d ≤ l.frames.length) : Stays w d 0 l l := by
  refine ⟨rfl, fun k hk => ⟨l, ?_, h⟩⟩
  obtain rfl := Nat.le_zero.1 hk
  rfl

theorem Stays.cons (hl : d ≤ l.frames.length) (hmove : Move w l l') (h : Stays w d n l' l'') :
    Stays w d (n + 1) l l'' := by
  have hstep := step_eq_some_iff.2 hmove
  refine ⟨by rw [Steps.after_succ hstep, h.after], fun k hk => ?_⟩
  cases k with
  | zero => exact ⟨l, rfl, hl⟩
  | succ k =>
      rw [Steps.after_succ hstep]
      exact h.bound k (by omega)

theorem Stays.trans (h : Stays w d n l l') (h' : Stays w d n' l' l'') :
    Stays w d (n + n') l l'' := by
  refine ⟨by rw [Steps.after_add_of_eq h.after, h'.after], fun k hk => ?_⟩
  by_cases hle : k ≤ n
  · exact h.bound k hle
  · obtain ⟨i, rfl⟩ := Nat.exists_eq_add_of_le (Nat.le_of_not_le hle)
    rw [Steps.after_add_of_eq h.after]
    exact h'.bound i (by omega)

theorem Returns.stays (h : Returns w n l l') (hl' : l.frames.length ≤ l'.frames.length) :
    Stays w l.frames.length n l l' := by
  refine ⟨h.after, fun k hk => ?_⟩
  rcases Nat.eq_zero_or_pos k with rfl | hpos
  · exact ⟨l, rfl, Nat.le_refl _⟩
  · rcases Nat.eq_or_lt_of_le hk with rfl | hlt
    · exact ⟨l', h.after, hl'⟩
    · obtain ⟨m, hm, hdeep⟩ := h.deeper k hpos hlt
      exact ⟨m, hm, Nat.le_of_lt hdeep⟩

theorem Returns.of_move (h : Move w l l') : Returns w 1 l l' := by
  refine ⟨?_, fun k hpos hlt => by omega⟩
  rw [Steps.after_succ (step_eq_some_iff.2 h)]
  rfl

/-- A run that begins with a move to a deeper state, stays there, and ends with a move back. -/
theorem Returns.of_stays {first last : Loader} (hfirst : Move w l first)
    (h : Stays w (l.frames.length + 1) n first last) (hlast : Move w last l') :
    Returns w (n + 2) l l' := by
  have hstep := step_eq_some_iff.2 hfirst
  refine ⟨?_, fun k hpos hlt => ?_⟩
  · rw [Steps.after_succ hstep, Steps.after_add_of_eq h.after,
      Steps.after_succ (step_eq_some_iff.2 hlast)]
    rfl
  · obtain ⟨i, rfl⟩ := Nat.exists_eq_succ_of_ne_zero (Nat.ne_of_gt hpos)
    rw [Steps.after_succ hstep]
    exact h.bound i (by omega)

end Runs

/-! ## A whole load -/

section Load

variable {w : Workspace} {fuel : Nat} {chain : List Place}

/-- An open document follows its references in turn, if each load in between returns. -/
theorem stays_pending (path : String) (own : Document) (frames : List Frame)
    (hcall : ∀ (frames : List Frame) (parent : String), ∃ n, Returns w n
      ⟨chain, frames, .call parent⟩ ⟨chain, frames, .answer (loadChain? w fuel chain parent)⟩)
    (pending : List String) : ∀ parents, ∃ n, Stays w (frames.length + 1) n
      ⟨chain, ⟨path, own, pending, parents⟩ :: frames, .next⟩
      ⟨chain, ⟨path, own, [], parents ++ pending.filterMap fun reference =>
        (locateInherited? w (directoryOf path) reference).bind (loadChain? w fuel chain)⟩ :: frames,
        .next⟩ := by
  induction pending with
  | nil =>
      intro parents
      rw [List.filterMap_nil, List.append_nil]
      exact ⟨0, .refl (Nat.le_refl _)⟩
  | cons reference pending ih =>
      intro parents
      cases hlocate : locateInherited? w (directoryOf path) reference with
      | none =>
          obtain ⟨n, hrest⟩ := ih parents
          rw [List.filterMap_cons_none (by rw [hlocate, Option.bind_none])]
          exact ⟨n + 1, .cons (Nat.le_refl _) (.skip hlocate) hrest⟩
      | some parent =>
          obtain ⟨m, hreturns⟩ := hcall (⟨path, own, pending, parents⟩ :: frames) parent
          obtain ⟨n, hrest⟩ := ih (parents ++ (loadChain? w fuel chain parent).toList)
          have hfound : parents ++ (reference :: pending).filterMap (fun reference =>
              (locateInherited? w (directoryOf path) reference).bind (loadChain? w fuel chain)) =
              parents ++ (loadChain? w fuel chain parent).toList ++ pending.filterMap
                fun reference => (locateInherited? w (directoryOf path) reference).bind
                  (loadChain? w fuel chain) := by
            rw [List.filterMap_cons, hlocate, Option.bind_some, List.append_assoc]
            cases loadChain? w fuel chain parent <;> rfl
          rw [hfound]
          -- the load of the parent is deeper than this document, whose frame stays in between
          exact ⟨_, .cons (Nat.le_refl _) (.follow hlocate)
            ((hreturns.stays (Nat.le_refl _)).trans (.cons (Nat.le_refl _) .take hrest))⟩

/-- A load returns to the chain and the stack that it began with, and answers what the recursion
gives as long as that has fuel for all the files left. -/
theorem returns_call (w : Workspace) (fuel : Nat) :
    ∀ (chain : List Place) (frames : List Frame) (path : String), chain.Nodup →
      (∀ q ∈ chain, w.tree.hasFile q = true) → w.tree.files.length + 1 ≤ fuel + chain.length →
      ∃ n, Returns w n ⟨chain, frames, .call path⟩
        ⟨chain, frames, .answer (loadChain? w fuel chain path)⟩ := by
  -- Each document that is opened costs one unit of fuel and makes the chain one place longer, so
  -- the bound on their sum is kept, and the fuel lasts until every file is in the chain.
  induction fuel with
  | zero =>
      intro chain frames path hnodup hfiles hfuel
      have hle := length_chain_le hnodup hfiles
      omega
  | succ fuel ih =>
      intro chain frames path hnodup hfiles hfuel
      by_cases cut : ∀ p own, w.fileAt? path = some p → loadAt? w p = some own → p ∈ chain
      · rw [loadChain?_eq_none _ cut]
        exact ⟨1, .of_move (.refuse cut)⟩
      · push Not at cut
        obtain ⟨p, own, found, loads, fresh⟩ := cut
        have hbelow : ∀ (frames : List Frame) (parent : String), ∃ n, Returns w n
            ⟨p :: chain, frames, .call parent⟩
            ⟨p :: chain, frames, .answer (loadChain? w fuel (p :: chain) parent)⟩ := by
          intro frames parent
          refine ih (p :: chain) frames parent (List.nodup_cons.2 ⟨fresh, hnodup⟩)
            (List.forall_mem_cons.2 ⟨(Workspace.fileOf?_eq_some_iff.1 found).2, hfiles⟩) ?_
          rw [List.length_cons]
          omega
        obtain ⟨n, hinside⟩ := stays_pending path own frames hbelow own.inherited []
        rw [loadChain?_succ found fresh loads]
        exact ⟨n + 2, .of_stays (.opens found fresh loads) hinside .close⟩

end Load

end Loader

namespace Document

/-- Loading a document ends, with what `loadMerged?` gives. Until then, the chain holds the places
of the open documents: different places of files that hold documents, so the loads under way are
never more than one above the number of files. Each load that begins returns to the chain and the
stack that it began with. -/
theorem loadMerged?_terminates (w : Workspace) (path : String) :
    (∃ n, Steps.after (Loader.step w) n (.start path)
      = some ⟨[], [], .answer (loadMerged? w path)⟩) ∧
    Loader.step w ⟨[], [], .answer (loadMerged? w path)⟩ = none ∧
    ∀ k l, Steps.after (Loader.step w) k (.start path) = some l →
      l.chain.Nodup ∧
      l.chain.map some = l.frames.map (fun frame => w.fileAt? frame.path) ∧
      (∀ p ∈ l.chain, w.tree.hasFile p = true ∧ ∃ d, loadAt? w p = some d) ∧
      l.depth ≤ w.tree.files.length + 1 ∧
      ∀ next, l.control = .call next → ∃ n,
        Steps.after (Loader.step w) n l = some ⟨l.chain, l.frames,
          .answer (loadChain? w (w.tree.files.length + 1) l.chain next)⟩ ∧
        ∀ j, 0 < j → j < n →
          ∃ m, Steps.after (Loader.step w) j l = some m ∧ l.frames.length < m.frames.length := by
  refine ⟨?_, rfl, fun k l hafter => ?_⟩
  · obtain ⟨n, hreturns⟩ := Loader.returns_call w (w.tree.files.length + 1) [] [] path
      List.nodup_nil (by simp) (Nat.le_refl _)
    exact ⟨n, hreturns.after⟩
  · have hsound := Loader.sound_after hafter
    refine ⟨hsound.nodup, hsound.places, fun p hp => ⟨hsound.hasFile hp, hsound.loads p hp⟩,
      hsound.depth_le, fun next hcall => ?_⟩
    obtain ⟨chain, frames, control⟩ := l
    obtain rfl : control = .call next := hcall
    obtain ⟨n, hreturns⟩ := Loader.returns_call w (w.tree.files.length + 1) chain frames next
      hsound.nodup (fun p => hsound.hasFile) (Nat.le_add_right _ _)
    exact ⟨n, hreturns.after, hreturns.deeper⟩

/-- Two documents that extend each other and themselves, under several spellings and twice. -/
def spellings : Workspace where
  tree.files :=
    [(["a.json"], "\x7b\"extends\":[\"./lib/../a.json\",\"lib/b\",\"lib/b\"]\x7d".toUTF8),
     (["lib", "b.json"], "\x7b\"extends\":[\"../a\",\"./b.json\"]\x7d".toUTF8)]
  tree.directories := [["lib"]]
  cwd := []

/-- The second reference of the first document leads to the other one, whose own references are all
cut off: it is opened, and the load returns to the chain with the first document only. -/
theorem loadMerged?_terminates_spellings :
    let before : Loader :=
      ⟨[["a.json"]],
        [⟨"a.json", ⟨[], none, ["./lib/../a.json", "lib/b", "lib/b"]⟩, ["lib/b"], []⟩],
        .call "lib/b.json"⟩
    Steps.after (Loader.step spellings) 5 (.start "a.json") = some before ∧ before.depth ≤ 3 ∧
      (spellings.tree.hasFile ["a.json"] = true ∧ ∃ d, loadAt? spellings ["a.json"] = some d) ∧
      ∃ n, 1 < n ∧
        Steps.after (Loader.step spellings) n before =
          some ⟨before.chain, before.frames, .answer (some ⟨[], none, ["../a", "./b.json"]⟩)⟩ ∧
        ∃ m, Steps.after (Loader.step spellings) 1 before = some m ∧ 1 < m.frames.length := by
  intro before
  have hbefore : Steps.after (Loader.step spellings) 5 (.start "a.json") = some before := by
    decide +kernel
  have hload : loadChain? spellings 3 before.chain "lib/b.json" =
      some ⟨[], none, ["../a", "./b.json"]⟩ := by
    decide +kernel
  obtain ⟨-, -, hdocuments, hdepth, hcall⟩ :=
    (loadMerged?_terminates spellings "a.json").2.2 5 before hbefore
  obtain ⟨n, hafter, hdeeper⟩ := hcall "lib/b.json" rfl
  rw [show spellings.tree.files.length + 1 = 3 from rfl, hload] at hafter
  -- Neither the state itself nor the next one is an answer.
  have hn : 1 < n := by
    by_contra hle
    rcases Nat.le_one_iff_eq_zero_or_eq_one.1 (Nat.le_of_not_lt hle) with rfl | rfl
    · exact absurd hafter (by decide +kernel)
    · exact absurd hafter (by decide +kernel)
  exact ⟨hbefore, hdepth, hdocuments _ List.mem_cons_self, n, hn, hafter,
    hdeeper 1 Nat.one_pos hn⟩

end Document

end SliceLint
