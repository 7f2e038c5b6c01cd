import OnyxServer.PersistentMap.Versions

/-!
# Runs over many versions

Any version obtained so far may be changed, retained, released and iterated, in any order. Its
holder uses a version only while it holds it, and gives back no more than it holds.
-/
namespace OnyxServer.PersistentMap

open Lib List Option

variable {K V : Type}

/-- A version that was obtained. `finite` is no part of the code: it is the finite map that the
same operations make. -/
structure Version (ctx : Context K) (V : Type) where
  map : Map
  held : Nat
  finite : Finite ctx V

/-- An iterator of a version, with what it yielded so far. -/
structure Walker (K V : Type) where
  version : Nat
  iterator : Iterator
  yielded : List (Entry K V)

structure World (ctx : Context K) (V : Type) where
  heap : Heap (Kind K V)
  versions : List (Version ctx V)
  walkers : List (Walker K V)

inductive Op (K V : Type) where
  | put (version : Nat) (key : K) (value : V)
  | remove (version : Nat) (key : K)
  | retain (version : Nat)
  | release (version : Nat)
  | iterate (version : Nat)
  | next (walker : Nat)

namespace World

variable {ctx : Context K}

/-- The empty map is held by whoever starts. -/
def start (ctx : Context K) (V : Type) (allocator : Allocator) : World ctx V :=
  ⟨⟨[], allocator, 0⟩, [⟨.empty, 1, ∅⟩], []⟩

/-- The version with this number, when somebody holds it. -/
def held (world : World ctx V) (version : Nat) : Option (Version ctx V) :=
  world.versions[version]?.filter fun v => 0 < v.held

/-- A new version made from one that is held. -/
def derive (world : World ctx V) (version : Nat) (code : Map → Mem (Kind K V) Map)
    (spec : Finite ctx V → Finite ctx V) : Option (World ctx V) :=
  match world.held version with
  | none => some world
  | some v =>
    match code v.map world.heap with
    | .ok map heap =>
        some { world with heap := heap, versions := world.versions ++ [⟨map, 1, spec v.finite⟩] }
    | .outOfMemory heap => some { world with heap := heap }
    | .fault => none

/-- One more or one less reference to a version that is held. -/
def recount (world : World ctx V) (version : Nat) (code : Map → Mem (Kind K V) Unit)
    (count : Nat → Nat) :
    Option (World ctx V) :=
  match world.held version with
  | none => some world
  | some v =>
    match code v.map world.heap with
    | .ok () heap =>
        some { world with heap := heap, versions :=
          world.versions.set version { v with held := count v.held } }
    | .outOfMemory heap => some { world with heap := heap }
    | .fault => none

def advance (world : World ctx V) (walker : Nat) : Option (World ctx V) :=
  match world.walkers[walker]? with
  | none => some world
  | some w =>
    match world.held w.version with
    | none => some world
    | some _ =>
      match w.iterator.next world.heap with
      | .ok (entry, iterator) heap =>
        some { world with heap := heap,
                          walkers :=
                            world.walkers.set walker
                            ⟨w.version, iterator, w.yielded ++ entry.toList⟩ }
      | .outOfMemory heap => some { world with heap := heap }
      | .fault => none

/-- One operation; `none` when the code faults. -/
def step (world : World ctx V) : Op K V → Option (World ctx V)
  | .put version key value =>
      world.derive version (fun map => map.put ctx key value) (·.insert (ctx.cls key) value)
  | .remove version key =>
      world.derive version (fun map => map.remove ctx key) (·.erase (ctx.cls key))
  | .retain version => world.recount version Map.retain (· + 1)
  | .release version => world.recount version Map.release (· - 1)
  | .iterate version =>
    match world.held version with
    | none => some world
    | some v => some { world with walkers := world.walkers ++ [⟨version, v.map.iterator, []⟩] }
  | .next walker => world.advance walker

def run (world : World ctx V) (ops : List (Op K V)) : Option (World ctx V) := ops.foldlM step world

end World

variable {ctx : Context K} {heap next : Heap (Kind K V)} {owners : Multiset Addr}
    {world later : World ctx V}
  {version : Version ctx V} {walker : Walker K V} {n : Nat}

/-- The references that the holders of a version have. -/
def Version.handles (version : Version ctx V) : List Addr :=
  match version.map.root with
  | some root => List.replicate version.held root
  | none => []

def World.references (world : World ctx V) : Multiset Addr :=
  Multiset.ofList (world.versions.flatMap Version.handles)

/-- The version stands for its finite map. -/
def Version.Right (version : Version ctx V) (heap : Heap (Kind K V)) : Prop :=
  ∃ entries, Stands ctx heap version.map entries ∧ (pairs ctx entries).Perm version.finite.entries

/-- What was yielded and what is left are the entries of the version. -/
def Walker.Right (walker : Walker K V) (version : Version ctx V) (heap : Heap (Kind K V)) : Prop :=
  ∃ left root levels, (pairs ctx (walker.yielded ++ left)).Perm version.finite.entries ∧
    Walk ctx heap root levels walker.iterator left ∧
      (walker.iterator = [] ∨ version.map.root = some root)

structure World.Sound (world : World ctx V) : Prop where
  owned : Owned Kind.pointers world.heap world.references
  versions : ∀ n version, world.held n = some version → version.Right world.heap
  known : ∀ walker ∈ world.walkers, walker.version < world.versions.length
  walkers : ∀ walker ∈ world.walkers, ∀ version, world.held walker.version = some version →
    walker.Right version world.heap

theorem held_iff :
    world.held n = some version ↔ world.versions[n]? = some version ∧ 0 < version.held := by
  rw [World.held, Option.filter_eq_some_iff, decide_eq_true_eq]

theorem handle_le (h : world.held n = some version) : version.map.handle ≤ world.references := by
  obtain ⟨hget, hpos⟩ := held_iff.mp h
  obtain ⟨⟨root, len⟩, held, finite⟩ := version
  cases root with
  | none => exact Multiset.zero_le _
  | some root =>
    have hin : root ∈ (⟨⟨some root, len⟩, held, finite⟩ : Version ctx V).handles :=
      mem_replicate.mpr ⟨Nat.ne_of_gt hpos, rfl⟩
    exact Multiset.singleton_le.mpr (mem_flatMap.mpr ⟨_, mem_of_getElem? hget, hin⟩)

theorem Version.Right.follows (h : version.Right heap)
    (hafter : After Kind.pointers heap owners next)
    (hhandle : version.map.handle ≤ owners) : version.Right next :=
  have ⟨entries, hstands, hperm⟩ := h
  ⟨entries, hstands.follows hafter hhandle, hperm⟩

theorem Walker.Right.follows (h : walker.Right version heap)
    (hafter : After Kind.pointers heap owners next)
    (hhandle : version.map.handle ≤ owners) : walker.Right version next := by
  obtain ⟨left, root, levels, hperm, hwalk, hroot⟩ := h
  refine ⟨left, root, levels, hperm, ?_, hroot⟩
  rcases hroot with hnil | hroot
  · rw [hnil] at hwalk ⊢
    cases hwalk
    exact .done
  · rw [Map.handle, hroot] at hhandle
    exact (hwalk.follows hafter.follows hafter.owned
      (Multiset.mem_of_le hhandle (Multiset.mem_singleton_self root))).1

/-- What is held later was held already and is the same, or is new and right. -/
theorem World.Sound.carry (h : world.Sound)
    (hafter : After Kind.pointers world.heap later.references later.heap)
    (hversions : ∀ n version, later.held n = some version →
      (∃ old, world.held n = some old ∧ old.map = version.map ∧ old.finite = version.finite) ∨
        world.versions.length ≤ n ∧ version.Right later.heap)
    (hwalkers : later.walkers = world.walkers)
    (hlength : world.versions.length ≤ later.versions.length) :
    later.Sound where
  owned := hafter.owned
  versions := by
    intro n version hheld
    rcases hversions n version hheld with ⟨old, hold, hmap, hfinite⟩ | ⟨-, hright⟩
    · have hright := (h.versions n old hold).follows hafter (hmap ▸ handle_le hheld)
      rwa [Version.Right, hmap, hfinite] at hright
    · exact hright
  known := fun walker hwalker => Nat.lt_of_lt_of_le (h.known walker (hwalkers ▸ hwalker)) hlength
  walkers := by
    intro walker hwalker version hheld
    rw [hwalkers] at hwalker
    rcases hversions _ version hheld with ⟨old, hold, hmap, hfinite⟩ | ⟨hnew, -⟩
    · have hright := (h.walkers walker hwalker old hold).follows hafter (hmap ▸ handle_le hheld)
      rwa [Walker.Right, hmap, hfinite] at hright
    · exact absurd (h.known walker hwalker) (Nat.not_lt_of_le hnew)

/-! ## What one operation does -/

/-- Every version that was obtained stays as it is; only its holders may change. -/
def World.Extends (world later : World ctx V) : Prop :=
  later.heap.allocator = world.heap.allocator ∧
    ∀ (n : Nat) (version : Version ctx V), world.versions[n]? = some version →
      ∃ held, later.versions[n]? = some { version with held := held }

theorem World.Extends.refl (world : World ctx V) : world.Extends world :=
  ⟨rfl, fun _ version h => ⟨version.held, h⟩⟩

theorem World.Extends.trans {last : World ctx V} (h : world.Extends later)
    (h' : later.Extends last) : world.Extends last := by
  refine ⟨h'.1.trans h.1, fun n version hget => ?_⟩
  obtain ⟨_, hlater⟩ := h.2 n version hget
  have hlast := h'.2 n _ hlater
  exact hlast

/-- The operation does not fault, and leaves a world in which everything holds. -/
def Keeps (world : World ctx V) (result : Option (World ctx V)) : Prop :=
  ∃ later, result = some later ∧ later.Sound ∧ world.Extends later

theorem World.Sound.keeps (h : world.Sound) : Keeps world (some world) :=
  ⟨world, rfl, h, .refl world⟩

theorem World.Sound.unchanged (h : world.Sound)
    (hafter : After Kind.pointers world.heap world.references heap) :
    ({ world with heap := heap } : World ctx V).Sound :=
  h.carry hafter (fun _ version hheld => .inl ⟨version, hheld, rfl, rfl⟩) rfl (Nat.le_refl _)

theorem references_append (world : World ctx V) (heap : Heap (Kind K V)) (map : Map)
    (finite : Finite ctx V) :
    ({ world with heap := heap, versions := world.versions ++ [⟨map, 1, finite⟩] } :
      World ctx V).references =
      map.handle + world.references := by
  obtain ⟨root, len⟩ := map
  rw [Multiset.add_comm, World.references, flatMap_append, ← Multiset.coe_add]
  cases root with
  | none => rfl
  | some root => rfl

/-- The code makes a version of the finite map, or gives up for want of memory. -/
def Makes (world : World ctx V) (m : Mem (Kind K V) Map) (finite : Finite ctx V) : Prop :=
  Runs m world.heap
    (fun made next => After Kind.pointers world.heap (made.handle + world.references) next ∧
      Version.Right ⟨made, 1, finite⟩ next)
    (Failed Kind.pointers world.heap world.references)

theorem derive_keeps (h : world.Sound) (n : Nat) {code : Map → Mem (Kind K V) Map}
    {spec : Finite ctx V → Finite ctx V} (hcode : ∀ version, world.held n = some version →
      Makes world (code version.map) (spec version.finite)) :
    Keeps world (world.derive n code spec) := by
  rw [World.derive]
  cases hheld : world.held n with
  | none => exact h.keeps
  | some version =>
    have hrun := hcode version hheld
    unfold Makes Runs at hrun
    dsimp only
    split at hrun
    · next made next hmade =>
      obtain ⟨hafter, hright⟩ := hrun
      rw [hmade]
      refine ⟨_, rfl, h.carry (references_append world next made _ ▸ hafter) ?_ rfl ?_,
        hafter.follows.allocator_eq, ?_⟩
      · intro m later hlater
        obtain ⟨hget, hpos⟩ := held_iff.mp hlater
        rcases Nat.lt_or_ge m world.versions.length with hlt | hge
        · rw [List.getElem?_append_left hlt] at hget
          exact .inl ⟨later, held_iff.mpr ⟨hget, hpos⟩, rfl, rfl⟩
        refine .inr ⟨hge, ?_⟩
        rw [List.getElem?_append_right hge] at hget
        obtain ⟨hidx, hlast⟩ := List.getElem?_eq_some_iff.mp hget
        rw [getElem_singleton] at hlast
        exact hlast ▸ hright
      · rw [length_append]
        exact Nat.le_add_right _ _
      · intro m old hold
        refine ⟨old.held, ?_⟩
        rw [List.getElem?_append_left (List.getElem?_eq_some_iff.mp hold).1]
        exact hold
    · next next hmade =>
      rw [hmade]
      exact ⟨_, rfl, h.unchanged hrun.toAfter, hrun.follows.allocator_eq,
        fun _ old hold => ⟨old.held, hold⟩⟩
    · exact hrun.elim

theorem handles_count (map : Map) (finite : Finite ctx V) (held a : Nat) :
    (Version.handles ⟨map, held, finite⟩).count a = held * map.handle.count a := by
  obtain ⟨root, len⟩ := map
  cases root with
  | none => rfl
  | some root =>
    show (List.replicate held root).count a = held * (Multiset.ofList [root]).count a
    rw [count_replicate, Multiset.coe_count, count_singleton]
    split <;> simp

theorem references_set (held : Nat) (hget : world.versions[n]? = some version)
    (heap : Heap (Kind K V)) (a : Addr) :
    ({ world with heap := heap,
                  versions := world.versions.set n ⟨version.map, held, version.finite⟩ } :
                    World ctx V).references.count a +
        version.held * version.map.handle.count a =
      world.references.count a + held * version.map.handle.count a := by
  have hset := count_flatMap_set (b := a) Version.handles world.versions
    (⟨version.map, held, version.finite⟩ : Version ctx V) hget
  have hold : version.handles.count a = version.held * version.map.handle.count a :=
    handles_count version.map version.finite version.held a
  rw [hold, handles_count] at hset
  rw [World.references, World.references, Multiset.coe_count, Multiset.coe_count]
  exact hset

section

variable (h : world.Sound) (n : Nat)
include h

theorem recount_keeps {code : Map → Mem (Kind K V) Unit} {count : Nat → Nat}
    (hcode : ∀ version, world.held n = some version →
      Runs (code version.map) world.heap
        (fun _ next => After Kind.pointers world.heap
          ({ world with heap := next,
                        versions :=
                          world.versions.set n ⟨version.map, count version.held, version.finite⟩ } :
            World ctx V).references next)
        fun _ => False) :
    Keeps world (world.recount n code count) := by
  rw [World.recount]
  cases hheld : world.held n with
  | none => exact h.keeps
  | some version =>
    obtain ⟨_, next, hmade, hafter⟩ := (hcode version hheld).run
    obtain ⟨hget, hpos⟩ := held_iff.mp hheld
    dsimp only
    rw [hmade]
    refine ⟨_, rfl, h.carry hafter ?_ rfl (Nat.le_of_eq (length_set).symm),
      hafter.follows.allocator_eq, ?_⟩
    · intro m later hlater
      obtain ⟨hget', hpos'⟩ := held_iff.mp hlater
      by_cases hsame : n = m
      · subst hsame
        rw [List.getElem?_set_self (List.getElem?_eq_some_iff.mp hget).1] at hget'
        cases hget'
        exact .inl ⟨version, hheld, rfl, rfl⟩
      · rw [List.getElem?_set_ne hsame] at hget'
        exact .inl ⟨later, held_iff.mpr ⟨hget', hpos'⟩, rfl, rfl⟩
    · intro m old hold
      by_cases hsame : n = m
      · subst hsame
        rw [hget] at hold
        cases hold
        exact ⟨_, List.getElem?_set_self (List.getElem?_eq_some_iff.mp hget).1⟩
      · exact ⟨old.held, by rw [List.getElem?_set_ne hsame]; exact hold⟩

theorem retain_keeps : Keeps world (world.recount n Map.retain (· + 1)) := by
  refine recount_keeps h n fun version hheld => ?_
  refine (retain_runs_handle h.owned (handle_le hheld)).imp (fun _ next hnext => ?_) fun _ => id
  have hsame : ({ world with heap := next,
                             versions :=
                               world.versions.set n
                               ⟨version.map, version.held + 1, version.finite⟩ } :
      World ctx V).references = version.map.handle + world.references := by
    refine Multiset.ext.mpr fun a => ?_
    have hcount := references_set (version.held + 1) (held_iff.mp hheld).1 next a
    rw [Nat.succ_mul] at hcount
    rw [Multiset.count_add]
    omega
  exact hsame.symm ▸ hnext

theorem release_keeps : Keeps world (world.recount n Map.release (· - 1)) := by
  refine recount_keeps h n fun version hheld => ?_
  obtain ⟨hget, hpos⟩ := held_iff.mp hheld
  obtain ⟨entries, hstands, -⟩ := h.versions n version hheld
  have hsame : version.map.handle + ({ world with
      versions := world.versions.set n ⟨version.map, version.held - 1, version.finite⟩ } :
      World ctx V).references =
      world.references := by
    refine Multiset.ext.mpr fun a => ?_
    have hcount := references_set (version.held - 1) hget world.heap a
    have hmul : version.held * version.map.handle.count a =
        (version.held - 1) * version.map.handle.count a + version.map.handle.count a := by
      rw [← Nat.succ_mul, Nat.succ_eq_add_one, Nat.sub_add_cancel hpos]
    rw [Multiset.count_add]
    omega
  exact release_runs_handle hstands (hsame.symm ▸ h.owned)

theorem iterate_keeps : Keeps world (world.step (.iterate n)) := by
  rw [World.step]
  cases hheld : world.held n with
  | none => exact h.keeps
  | some version =>
    obtain ⟨entries, hstands, hperm⟩ := h.versions n version hheld
    have hnew : Walker.Right ⟨n, version.map.iterator, []⟩ version world.heap := by
      obtain ⟨⟨root, len⟩, held, finite⟩ := version
      have hshape := hstands.shape
      cases root with
      | none =>
        have hnil : entries = [] := hshape
        subst hnil
        exact ⟨[], 0, maxDepth + 1, hperm, .done, .inl rfl⟩
      | some root => exact ⟨entries, root, maxDepth, hperm, walk_start hshape, .inr rfl⟩
    refine ⟨_, rfl, ⟨h.owned, h.versions, ?_, ?_⟩, .refl world⟩
    · intro walker hwalker
      rcases mem_append.mp hwalker with hold | hlast
      · exact h.known walker hold
      · rw [mem_singleton.mp hlast]
        exact (List.getElem?_eq_some_iff.mp (held_iff.mp hheld).1).1
    · intro walker hwalker other hother
      rcases mem_append.mp hwalker with hold | hlast
      · exact h.walkers walker hold other hother
      · rw [mem_singleton.mp hlast] at hother ⊢
        have hsame : version = other := some.inj (hheld.symm.trans hother)
        exact hsame ▸ hnew

end

theorem Walker.Right.yields (h : walker.Right version heap) :
    ∃ left iterator, (pairs ctx (walker.yielded ++ left)).Perm version.finite.entries ∧
      walker.iterator.next heap = .ok (left.head?, iterator) heap ∧
      Walker.Right ⟨walker.version, iterator, walker.yielded ++ left.head?.toList⟩ version
        heap := by
  obtain ⟨left, root, levels, hperm, hwalk, hroot⟩ := h
  obtain ⟨⟨entry, iterator⟩, next, hrun, rfl, hyielded⟩ := (next_runs hwalk).run
  cases left with
  | nil =>
    obtain ⟨rfl, rfl⟩ := hyielded
    refine ⟨[], [], hperm, hrun, [], root, maxDepth + 1, ?_, .done, .inl rfl⟩
    rw [List.head?_nil, Option.toList_none, append_nil]
    exact hperm
  | cons first left =>
    obtain ⟨rfl, levels', hwalk'⟩ := hyielded
    have hleft : walker.yielded ++ [first] ++ left = walker.yielded ++ first :: left := by
      rw [append_assoc, singleton_append]
    refine ⟨first :: left, iterator, hperm, hrun, left, root, levels', hleft ▸ hperm, hwalk', ?_⟩
    refine hroot.imp (fun hnil => ?_) id
    -- an empty stack has nothing to yield
    rw [hnil] at hwalk
    cases hwalk

theorem advance_keeps (h : world.Sound) (n : Nat) : Keeps world (world.advance n) := by
  rw [World.advance]
  cases hget : world.walkers[n]? with
  | none => exact h.keeps
  | some walker =>
    dsimp only
    cases hheld : world.held walker.version with
    | none => exact h.keeps
    | some version =>
      have hmem : walker ∈ world.walkers := mem_of_getElem? hget
      obtain ⟨left, iterator, -, hrun, hright⟩ := (h.walkers walker hmem version hheld).yields
      dsimp only
      rw [hrun]
      refine ⟨_, rfl, ⟨h.owned, h.versions, ?_, ?_⟩, .refl world⟩
      · intro other hother
        rcases mem_or_eq_of_mem_set hother with hold | rfl
        · exact h.known other hold
        · exact h.known walker hmem
      · intro other hother version' hversion'
        rcases mem_or_eq_of_mem_set hother with hold | rfl
        · exact h.walkers other hold version' hversion'
        · have hsame : version = version' := some.inj (hheld.symm.trans hversion')
          exact hsame ▸ hright

theorem put_makes (h : world.Sound) (hheld : world.held n = some version) (key : K) (value : V) :
    Makes world (version.map.put ctx key value) (version.finite.insert (ctx.cls key) value) := by
  obtain ⟨entries, hstands, hperm⟩ := h.versions n version hheld
  refine (put_runs hstands h.owned (handle_le hheld) key value).imp
    (fun made next hmade => ?_) fun _ => id
  obtain ⟨hafter, result, hresult, hputs⟩ := hmade
  refine ⟨hafter, result, hresult, ?_⟩
  have hput :
      (pairs ctx result).Perm (⟨ctx.cls key, value⟩ :: (pairs ctx entries).kerase (ctx.cls key)) :=
    pairs_kerase ctx key entries ▸ hputs.map _
  exact hput.trans ((hperm.kerase (pairs_nodupKeys hstands.distinct)).cons _)

theorem remove_makes (h : world.Sound) (hheld : world.held n = some version) (key : K) :
    Makes world (version.map.remove ctx key) (version.finite.erase (ctx.cls key)) := by
  obtain ⟨entries, hstands, hperm⟩ := h.versions n version hheld
  refine (remove_runs hstands h.owned (handle_le hheld) key).imp
    (fun made next hmade => ?_) fun _ => id
  refine ⟨hmade.1, _, hmade.2, ?_⟩
  rw [pairs_kerase]
  exact hperm.kerase (pairs_nodupKeys hstands.distinct)

theorem step_keeps (h : world.Sound) (op : Op K V) : Keeps world (world.step op) := by
  cases op with
  | put n key value =>
    rw [World.step]
    exact derive_keeps h n fun _ hheld => put_makes h hheld key value
  | remove n key =>
    rw [World.step]
    exact derive_keeps h n fun _ hheld => remove_makes h hheld key
  | retain n => exact retain_keeps h n
  | release n => exact release_keeps h n
  | iterate n => exact iterate_keeps h n
  | next n => exact advance_keeps h n

theorem run_keeps (h : world.Sound) (ops : List (Op K V)) : Keeps world (world.run ops) := by
  induction ops generalizing world with
  | nil => exact h.keeps
  | cons op ops ih =>
    obtain ⟨mid, hstep, hmid, hextends⟩ := step_keeps h op
    obtain ⟨last, hrun, hlast, hextends'⟩ := ih hmid
    refine ⟨last, ?_, hlast, hextends.trans hextends'⟩
    rw [World.run, foldlM_cons, hstep]
    exact hrun

theorem start_sound (ctx : Context K) (V : Type) (allocator : Allocator) :
    (World.start ctx V allocator).Sound where
  owned := fun a => rfl
  versions := by
    intro n version hheld
    obtain ⟨hget, -⟩ := held_iff.mp hheld
    obtain ⟨-, rfl⟩ : n = 0 ∧ (⟨.empty, 1, ∅⟩ : Version ctx V) = version := by
      cases n with
      | zero => exact ⟨rfl, some.inj hget⟩
      | succ n => cases hget
    exact ⟨[], ⟨rfl, rfl⟩, .refl _⟩
  known := fun _ hin => absurd hin not_mem_nil
  walkers := fun _ hin => absurd hin not_mem_nil

/-- What a version answers is what its finite map does. -/
structure Answers (world : World ctx V) (version : Version ctx V) : Prop where
  get : ∀ key, version.map.get ctx key world.heap =
    .ok (version.finite.lookup (ctx.cls key)) world.heap
  contains : ∀ key, version.map.contains ctx key world.heap =
    .ok (decide (ctx.cls key ∈ version.finite)) world.heap
  count : version.map.count = version.finite.entries.length

/-- An iterator yields the entries of its version, each once, and then nothing. -/
structure Iterates (world : World ctx V) (walker : Walker K V) (version : Version ctx V) :
    Prop where
  bounded : walker.yielded.length ≤ version.map.count
  once : ∃ left iterator, (pairs ctx (walker.yielded ++ left)).Perm version.finite.entries ∧
    walker.iterator.next world.heap = .ok (left.head?, iterator) world.heap

structure World.Refines (world : World ctx V) : Prop where
  versions : ∀ n version, world.held n = some version → Answers world version
  walkers : ∀ walker ∈ world.walkers, ∀ version, world.held walker.version = some version →
    Iterates world walker version

theorem Version.Right.answers (h : version.Right world.heap) : Answers world version := by
  obtain ⟨entries, hstands, hperm⟩ := h
  have hlookup : ∀ key, lookup ctx key entries = version.finite.lookup (ctx.cls key) := fun key =>
    (pairs_lookup ctx key entries).trans (perm_dlookup _ (pairs_nodupKeys hstands.distinct) hperm)
  refine ⟨fun key => ?_, fun key => ?_, ?_⟩
  · obtain ⟨_, _, hrun, rfl, rfl⟩ := (get_runs hstands key).run
    rw [hrun, hlookup]
  · obtain ⟨_, _, hrun, rfl, rfl⟩ := (contains_runs hstands key).run
    rw [hrun, hlookup, Bool.eq_iff_iff.mpr (AList.lookup_isSome.trans (decide_eq_true_iff).symm)]
  · rw [Map.count, hstands.len_eq, ← hperm.length_eq, pairs, length_map]

theorem World.Sound.refines (h : world.Sound) : world.Refines where
  versions := fun n version hheld => (h.versions n version hheld).answers
  walkers := by
    intro walker hwalker version hheld
    obtain ⟨left, iterator, hperm, hrun, -⟩ := (h.walkers walker hwalker version hheld).yields
    refine ⟨?_, left, iterator, hperm, hrun⟩
    rw [(h.versions _ version hheld).answers.count, ← hperm.length_eq, pairs, length_map,
      length_append]
    exact Nat.le_add_right _ _

/-- The operation makes a new version, of this finite map. -/
def World.Derives (world : World ctx V) (op : Op K V) (finite : Finite ctx V) : Prop :=
  ∃ map heap, world.step op =
    some { world with heap := heap, versions := world.versions ++ [⟨map, 1, finite⟩] }

theorem derive_granted {code : Map → Mem (Kind K V) Map} {spec : Finite ctx V → Finite ctx V}
    (hgrants : world.heap.Grants) (hheld : world.held n = some version)
    (hmakes : Makes world (code version.map) (spec version.finite)) :
    ∃ map heap, world.derive n code spec = some { world with
      heap := heap, versions := world.versions ++ [⟨map, 1, spec version.finite⟩] } := by
  obtain ⟨map, heap, hrun, -⟩ := hmakes.granted hgrants
  refine ⟨map, heap, ?_⟩
  simp only [World.derive, hheld, hrun]

/-- No run faults, and in the world that it ends in every version that is held answers as the
finite map of the same operations. Going on from there changes no version, and makes new ones
unless a request for memory is refused. -/
theorem run_refines (ctx : Context K) (allocator : Allocator) (ops more : List (Op K V)) :
    ∃ world later, (World.start ctx V allocator).run ops = some world ∧
      world.run more = some later ∧ world.Refines ∧ later.Refines ∧ world.Extends later ∧
      ((∀ request, allocator request = true) → ∀ n version, world.held n = some version →
        (∀ key value, world.Derives (.put n key value)
          (version.finite.insert (ctx.cls key) value)) ∧
        ∀ key, world.Derives (.remove n key) (version.finite.erase (ctx.cls key))) := by
  obtain ⟨world, hrun, hsound, hstart⟩ := run_keeps (start_sound ctx V allocator) ops
  obtain ⟨later, hlater, hsound', hextends⟩ := run_keeps hsound more
  refine ⟨world, later, hrun, hlater, hsound.refines, hsound'.refines, hextends,
    fun hgrants n version hheld => ?_⟩
  have hgrants : world.heap.Grants := fun request => hstart.1 ▸ hgrants request
  constructor
  · intro key value
    rw [World.Derives, World.step]
    exact derive_granted hgrants hheld (put_makes hsound hheld key value)
  · intro key
    rw [World.Derives, World.step]
    exact derive_granted hgrants hheld (remove_makes hsound hheld key)

end OnyxServer.PersistentMap
