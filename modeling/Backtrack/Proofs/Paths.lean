import Backtrack.Proofs.Regions

/-!
# Paths through regions

A path goes from vertex to vertex along edges and may pass a vertex any number of times.
What holds of all paths through a region is shown by induction on how the region is put
together:

    edges stay in a region or leave it for one of its exits   (Region.fits)
    every vertex of a region lies on a way through it         (Region.reached, Region.leads)
    no way stays in a region without rounds of a loop         (Region.hasRound_of_trap)
    only the group opened last is closed                      (Region.exists_nesting)
-/

namespace Backtrack

/-- The slots of the groups that are open after a test, where `opened` were open before it, each
list with the group opened last in front.  Only that group can be closed. -/
def Test.nest (test : Test) (opened : List Nat) : Option (List Nat) :=
  match test, opened with
  | .openSlot slot, opened => some (slot :: opened)
  | .closeSlot slot, last :: opened => if slot = last then some opened else none
  | .closeSlot _, [] => none
  | _, opened => some opened

/-- The slot that a test opens or closes. -/
def Test.slot? : Test → Option Nat
  | .openSlot slot | .closeSlot slot => some slot
  | _ => none

/-- A plain test opens and closes nothing. -/
theorem Test.nest_of_isPlain {test : Test} (h : test.isPlain = true) (opened : List Nat) :
    test.nest opened = some opened := by
  cases test <;> first | rfl | cases h

theorem Test.slot?_of_isPlain {test : Test} (h : test.isPlain = true) : test.slot? = none := by
  cases test <;> first | rfl | cases h

namespace Graph

/-- The test at vertex `n`. -/
def test? (g : Graph) (n : Nat) : Option Test := g.vertices[n]?.map (·.automaton.test)

/-- The groups that are open after a path, where `opened` were open before it. -/
def nest (g : Graph) : (path : List Nat) → (opened : List Nat) → Option (List Nat)
  | [], opened => some opened
  | n :: path, opened => do g.nest path (← (← g.test? n).nest opened)

/-- A path from a vertex to a vertex. -/
inductive Path (g : Graph) : (m n : Nat) → (path : List Nat) → Prop
  | single (n : Nat) : Path g n n [n]
  | step {l m n : Nat} {path : List Nat} :
      m ∈ g.successors l → Path g m n path → Path g l n (l :: path)

/-- There is a path from a vertex to a vertex. -/
def Reaches (g : Graph) (m n : Nat) : Prop := ∃ path, g.Path m n path

variable {g : Graph}

theorem successors_of_vertex {n : Nat} {v : Vertex} (hv : g.vertices[n]? = some v) :
    g.successors n = v.next := by
  unfold successors
  rw [hv]

theorem test?_of_vertex {n : Nat} {v : Vertex} (hv : g.vertices[n]? = some v) :
    g.test? n = some v.automaton.test := by
  unfold test?
  rw [hv, Option.map_some]

/-! ## Ways from vertex to vertex -/

namespace Path

variable {l m n : Nat} {path : List Nat}

theorem mem_first (h : g.Path m n path) : m ∈ path := by
  cases h <;> exact List.mem_cons_self

/-- One path after another passes the vertex at which they meet. -/
theorem trans {path' : List Nat} (h : g.Path l m path) (h' : g.Path m n path') :
    ∃ path, g.Path l n path ∧ m ∈ path := by
  induction h with
  | single m => exact ⟨path', h', h'.mem_first⟩
  | step hm _ ih =>
    obtain ⟨path, hpath, hmem⟩ := ih h'
    exact ⟨_, .step hm hpath, List.mem_cons_of_mem _ hmem⟩

/-- All vertices of a path but the last one have a successor on it. -/
theorem exists_successor (h : g.Path m n path) :
    ∀ l ∈ path, l = n ∨ ∃ k ∈ g.successors l, k ∈ path := by
  induction h with
  | single n => exact fun l hl => .inl (List.mem_singleton.1 hl)
  | step hm hpath ih =>
    intro l hl
    rcases List.mem_cons.1 hl with rfl | hl
    · exact .inr ⟨_, hm, List.mem_cons_of_mem _ hpath.mem_first⟩
    · refine (ih l hl).imp_right ?_
      rintro ⟨k, hk, hmem⟩
      exact ⟨k, hk, List.mem_cons_of_mem _ hmem⟩

end Path

namespace Reaches

variable {l m n : Nat}

theorem refl (n : Nat) : g.Reaches n n := ⟨_, .single n⟩

theorem trans (h : g.Reaches l m) (h' : g.Reaches m n) : g.Reaches l n := by
  obtain ⟨_, h⟩ := h
  obtain ⟨_, h'⟩ := h'
  obtain ⟨path, hpath, -⟩ := h.trans h'
  exact ⟨path, hpath⟩

/-- From a vertex there is a path to each of those to go on with. -/
theorem of_vertex {v : Vertex} (hv : g.vertices[m]? = some v) (hn : n ∈ v.next) : g.Reaches m n :=
  ⟨_, .step (by rw [successors_of_vertex hv]; exact hn) (.single n)⟩

end Reaches

theorem mem_choice {isLazy : Bool} {more stop n : Nat} :
    n ∈ Regex.choice isLazy more stop ↔ n = more ∨ n = stop := by
  cases isLazy <;> simp [Regex.choice, or_comm]

/-! ## Single vertices -/

/-- Vertex `n` fits into a part `R` of the graph that is left for the vertices `X`. -/
structure Fits (g : Graph) (R : Nat → Prop) (X : List Nat) (n : Nat) : Prop where
  nodup : (g.successors n).Nodup
  inside : ∀ m ∈ g.successors n, R m ∨ m ∈ X
  slots : ∀ test slot, g.test? n = some test → test.slot? = some slot → slot < g.captures

namespace Fits

variable {R R' : Nat → Prop} {X X' : List Nat} {n : Nat}

theorem mono (h : g.Fits R X n) (hR : ∀ m, R m → R' m) (hX : ∀ m ∈ X, R' m ∨ m ∈ X') :
    g.Fits R' X' n where
  nodup := h.nodup
  inside m hm := (h.inside m hm).elim (fun hm => .inl (hR m hm)) (hX m)
  slots := h.slots

theorem of_vertex {v : Vertex} (hv : g.vertices[n]? = some v) (hnodup : v.next.Nodup)
    (hinside : ∀ m ∈ v.next, R m ∨ m ∈ X)
    (hslots : ∀ slot, v.automaton.test.slot? = some slot → slot < g.captures) : g.Fits R X n where
  nodup := by rwa [successors_of_vertex hv]
  inside := by rwa [successors_of_vertex hv]
  slots test slot htest := by
    rw [test?_of_vertex hv] at htest
    cases htest
    exact hslots slot

end Fits

namespace Region

variable {E X : List Nat} {R : Nat → Prop}

/-- All vertices of a region fit into it. -/
theorem fits (h : g.Region E R X) {n : Nat} (hn : R n) : g.Fits R X n := by
  induction h with
  | vertex hv ht hX =>
    subst hn
    refine .of_vertex hv hX.nodup (fun m hm => .inr hm) fun slot hslot => ?_
    rw [Test.slot?_of_isPlain ht] at hslot
    cases hslot
  | beside _ _ _ ih ih' =>
    rcases hn with hn | hn
    · exact (ih hn).mono (fun m => .inl) fun m => .inr
    · exact (ih' hn).mono (fun m => .inr) fun m => .inr
  | before _ h' hX hE ih ih' =>
    rcases hn with hn | hn
    · exact (ih hn).mono (fun m => .inl) fun m hm =>
        (hX m hm).imp_left fun hm => .inr (h'.entries_inside m hm)
    · exact (ih' hn).mono (fun m => .inr) fun m => .inr
  | @group o c slot E X R ho hbody hc hslot hX ih =>
    have hslots : ∀ slot', some slot = some slot' → slot' < g.captures := by
      rintro slot' ⟨⟩
      exact hslot
    rcases hn with rfl | hn | rfl
    · exact .of_vertex ho hbody.entries.nodup
        (fun m hm => .inl (.inr (.inl (hbody.entries_inside m hm)))) hslots
    · exact (ih hn).mono (fun m hm => .inr (.inl hm)) fun m hm =>
        .inl (.inr (.inr (List.mem_singleton.1 hm)))
    · exact .of_vertex hc hX.nodup (fun m hm => .inr hm) hslots
  | @loop s e p q stop k isLazy E R hs he hbody hp hq hne ih =>
    rcases hn with rfl | rfl | hn | rfl | rfl
    · refine .of_vertex hs (Regex.ports_choice hne).nodup (fun m hm => ?_) nofun
      exact (mem_choice.1 hm).imp (fun h => .inr (.inl h)) List.mem_singleton.2
    · exact .of_vertex he hbody.entries.nodup
        (fun m hm => .inl (.inr (.inr (.inl (hbody.entries_inside m hm))))) nofun
    · refine (ih hn).mono (fun m hm => .inr (.inr (.inl hm))) fun m hm => .inl ?_
      simp only [List.mem_cons, List.not_mem_nil, or_false] at hm
      exact .inr (.inr (.inr hm))
    · exact .of_vertex hp (ports_singleton s).nodup
        (fun m hm => .inl (.inl (List.mem_singleton.1 hm))) nofun
    · exact .of_vertex hq (ports_singleton stop).nodup (fun m hm => .inr hm) nofun

/-! ## Ways through a region -/

/-- Every vertex of a region, and every exit, is reached from where the region is entered. -/
theorem reached (h : g.Region E R X) {n : Nat} (hn : R n ∨ n ∈ X) : ∃ e ∈ E, g.Reaches e n := by
  induction h generalizing n with
  | @vertex m a X hv ht hX =>
    refine ⟨m, List.mem_cons_self, ?_⟩
    rcases hn with rfl | hn
    · exact .refl n
    · exact .of_vertex hv hn
  | beside _ _ _ ih ih' =>
    rcases hn with (hn | hn) | hn
    · obtain ⟨e, he, h⟩ := ih (.inl hn)
      exact ⟨e, List.mem_append_left _ he, h⟩
    · obtain ⟨e, he, h⟩ := ih' (.inl hn)
      exact ⟨e, List.mem_append_right _ he, h⟩
    · obtain ⟨e, he, h⟩ := ih (.inr hn)
      exact ⟨e, List.mem_append_left _ he, h⟩
  | @before E E' X X' R R' _ h' hX hE ih ih' =>
    have hlater : R' n ∨ n ∈ X' → ∃ e ∈ E, g.Reaches e n := by
      intro hn
      obtain ⟨e', he', h'⟩ := ih' hn
      obtain ⟨e, he, h⟩ := ih (.inr (hE e' he'))
      exact ⟨e, he, h.trans h'⟩
    rcases hn with (hn | hn) | hn
    · exact ih (.inl hn)
    · exact hlater (.inl hn)
    · exact hlater (.inr hn)
  | @group o c slot E X R ho hbody hc hslot hX ih =>
    have hinner : ∀ n, R n ∨ n ∈ [c] → g.Reaches o n := by
      intro n hn
      obtain ⟨e, he, h⟩ := ih hn
      exact (Reaches.of_vertex ho he).trans h
    refine ⟨o, List.mem_cons_self, ?_⟩
    rcases hn with (rfl | hn | rfl) | hn
    · exact .refl n
    · exact hinner n (.inl hn)
    · exact hinner n (.inr List.mem_cons_self)
    · exact (hinner c (.inr List.mem_cons_self)).trans (.of_vertex hc hn)
  | @loop s e p q stop k isLazy E R hs he hbody hp hq hne ih =>
    have henter : g.Reaches s e := .of_vertex hs (mem_choice.2 (.inl rfl))
    have hinner : ∀ n, R n ∨ n ∈ [p, q] → g.Reaches s n := by
      intro n hn
      obtain ⟨m, hm, h⟩ := ih hn
      exact henter.trans ((Reaches.of_vertex he hm).trans h)
    refine ⟨s, List.mem_cons_self, ?_⟩
    rcases hn with (rfl | rfl | hn | rfl | rfl) | hn
    · exact .refl n
    · exact henter
    · exact hinner n (.inl hn)
    · exact hinner n (.inr (by simp))
    · exact hinner n (.inr (by simp))
    · exact .of_vertex hs (mem_choice.2 (.inr (List.mem_singleton.1 hn)))

/-- From every vertex of a region, one of the exits is reached. -/
theorem leads (h : g.Region E R X) {n : Nat} (hn : R n) : ∃ m ∈ X, g.Reaches n m := by
  induction h generalizing n with
  | vertex hv ht hX =>
    subst hn
    obtain ⟨m, hm⟩ := List.exists_mem_of_ne_nil _ hX.ne_nil
    exact ⟨m, hm, .of_vertex hv hm⟩
  | beside _ _ _ ih ih' => exact hn.elim ih ih'
  | @before E E' X X' R R' _ h' hX hE ih ih' =>
    rcases hn with hn | hn
    · obtain ⟨x, hx, h⟩ := ih hn
      rcases hX x hx with hx | hx
      · obtain ⟨m, hm, h'⟩ := ih' (h'.entries_inside x hx)
        exact ⟨m, hm, h.trans h'⟩
      · exact ⟨x, hx, h⟩
    · exact ih' hn
  | @group o c slot E X R ho hbody hc hslot hX ih =>
    obtain ⟨x, hx⟩ := List.exists_mem_of_ne_nil _ hX.ne_nil
    have hclose : g.Reaches c x := .of_vertex hc hx
    have hinner : ∀ n, R n → g.Reaches n x := by
      intro n hn
      obtain ⟨m, hm, h⟩ := ih hn
      exact h.trans (List.mem_singleton.1 hm ▸ hclose)
    refine ⟨x, hx, ?_⟩
    rcases hn with rfl | hn | rfl
    · obtain ⟨e, he⟩ := List.exists_mem_of_ne_nil _ hbody.entries.ne_nil
      exact (Reaches.of_vertex ho he).trans (hinner e (hbody.entries_inside e he))
    · exact hinner n hn
    · exact hclose
  | @loop s e p q stop k isLazy E R hs he hbody hp hq hne ih =>
    have hskip : g.Reaches s stop := .of_vertex hs (mem_choice.2 (.inr rfl))
    have hagain : g.Reaches p stop := (Reaches.of_vertex hp List.mem_cons_self).trans hskip
    have hend : g.Reaches q stop := .of_vertex hq List.mem_cons_self
    have hinner : ∀ n, R n → g.Reaches n stop := by
      intro n hn
      obtain ⟨m, hm, h⟩ := ih hn
      simp only [List.mem_cons, List.not_mem_nil, or_false] at hm
      rcases hm with rfl | rfl
      · exact h.trans hagain
      · exact h.trans hend
    refine ⟨stop, List.mem_cons_self, ?_⟩
    rcases hn with rfl | rfl | hn | rfl | rfl
    · exact hskip
    · obtain ⟨m, hm⟩ := List.exists_mem_of_ne_nil _ hbody.entries.ne_nil
      exact (Reaches.of_vertex he hm).trans (hinner m (hbody.entries_inside m hm))
    · exact hinner n hn
    · exact hagain
    · exact hend

end Region

/-- With one entry and one exit, every vertex lies on a path from the one to the other. -/
theorem Region.exists_path_through {R : Nat → Prop} {l m n : Nat} (h : g.Region [m] R [n])
    (hl : R l ∨ l = n) : ∃ path, g.Path m n path ∧ l ∈ path := by
  obtain ⟨e, he, path, hpath⟩ := h.reached (hl.imp_right List.mem_singleton.2)
  have hleads : g.Reaches l n := by
    rcases hl with hl | rfl
    · obtain ⟨x, hx, hreaches⟩ := h.leads hl
      exact List.mem_singleton.1 hx ▸ hreaches
    · exact .refl l
  obtain ⟨path', hpath'⟩ := hleads
  obtain rfl := List.mem_singleton.1 he
  exact hpath.trans hpath'

/-! ## Ways that stay in a region -/

/-- From every vertex in `S` an edge leads to one in `S`. -/
def Trap (g : Graph) (S : Nat → Prop) : Prop := ∀ n, S n → ∃ m ∈ g.successors n, S m

/-- Among the vertices in `S` a round of some loop begins and may be followed by another one. -/
def HasRound (g : Graph) (S : Nat → Prop) : Prop :=
  ∃ k e p, S e ∧ S p ∧ g.test? e = some (.enterLoop k) ∧ g.test? p = some (.progressed k)

theorem Trap.next {S : Nat → Prop} (hS : g.Trap S) {n : Nat} {v : Vertex}
    (hv : g.vertices[n]? = some v) (hn : S n) : ∃ m ∈ v.next, S m := by
  rw [← successors_of_vertex hv]
  exact hS n hn

/-- A trap that meets a region and has none of its exits has a round of some loop. -/
theorem Region.hasRound_of_trap {E X : List Nat} {R S : Nat → Prop} (h : g.Region E R X)
    (hS : g.Trap S) (hX : ∀ n ∈ X, ¬ S n) {n : Nat} (hn : R n) (hn' : S n) : g.HasRound S := by
  induction h generalizing n with
  | vertex hv =>
    subst hn
    obtain ⟨m, hm, hm'⟩ := hS.next hv hn'
    exact absurd hm' (hX m hm)
  | beside _ _ _ ih ih' =>
    rcases hn with hn | hn
    · exact ih hX hn hn'
    · exact ih' hX hn hn'
  | @before E E' X X' R R' _ h' hskip hE ih ih' =>
    by_cases hlater : ∃ m, R' m ∧ S m
    · obtain ⟨m, hm, hm'⟩ := hlater
      exact ih' hX hm hm'
    · refine ih (fun m hm hm' => ?_) (hn.resolve_right fun hn => hlater ⟨n, hn, hn'⟩) hn'
      rcases hskip m hm with hm | hm
      · exact hlater ⟨m, h'.entries_inside m hm, hm'⟩
      · exact hX m hm hm'
  | @group o c slot E X R ho hbody hc hslot hX' ih =>
    have hclose : ¬ S c := by
      intro hc'
      obtain ⟨m, hm, hm'⟩ := hS.next hc hc'
      exact hX m hm hm'
    have hinner : ∀ m, R m → S m → g.HasRound S := fun m hm hm' =>
      ih (fun x hx => List.mem_singleton.1 hx ▸ hclose) hm hm'
    rcases hn with rfl | hn | rfl
    · obtain ⟨m, hm, hm'⟩ := hS.next ho hn'
      exact hinner m (hbody.entries_inside m hm) hm'
    · exact hinner n hn hn'
    · exact absurd hn' hclose
  | @loop s e p q stop k isLazy E R hs he hbody hp hq hne ih =>
    have hstop : ¬ S stop := hX stop List.mem_cons_self
    have hstalled : ¬ S q := by
      intro hq'
      obtain ⟨m, hm, hm'⟩ := hS.next hq hq'
      exact hX m hm hm'
    have hsplit : S s → S e := by
      intro hs'
      obtain ⟨m, hm, hm'⟩ := hS.next hs hs'
      rcases mem_choice.1 hm with rfl | rfl
      · exact hm'
      · exact absurd hm' hstop
    have hagain : S p → S s := by
      intro hp'
      obtain ⟨m, hm, hm'⟩ := hS.next hp hp'
      exact List.mem_singleton.1 hm ▸ hm'
    -- Either another round may follow, or the trap does not leave the body.
    by_cases hprogressed : S p
    · exact ⟨k, e, p, hsplit (hagain hprogressed), hprogressed, test?_of_vertex he,
        test?_of_vertex hp⟩
    · have hinner : ∀ m, R m → S m → g.HasRound S := fun m hm hm' =>
        ih (by simp [hprogressed, hstalled]) hm hm'
      have henter : S e → g.HasRound S := by
        intro he'
        obtain ⟨m, hm, hm'⟩ := hS.next he he'
        exact hinner m (hbody.entries_inside m hm) hm'
      rcases hn with rfl | rfl | hn | rfl | rfl
      · exact henter (hsplit hn')
      · exact henter hn'
      · exact hinner n hn hn'
      · exact absurd hn' hprogressed
      · exact absurd hn' hstalled

/-- The vertices of a cycle are a trap. -/
theorem Path.trap {m n : Nat} {path : List Nat} (h : g.Path m n path)
    (hedge : m ∈ g.successors n) : g.Trap (· ∈ path) := by
  intro l hl
  rcases h.exists_successor l hl with rfl | hl
  · exact ⟨m, hedge, h.mem_first⟩
  · exact hl

/-- Every cycle that meets a region from whose exits no edge leads on has a round of some loop. -/
theorem Region.hasRound_of_cycle {E X : List Nat} {R : Nat → Prop} (h : g.Region E R X)
    (hX : ∀ x ∈ X, g.successors x = []) {m n : Nat} {path : List Nat} (hpath : g.Path m n path)
    (hedge : m ∈ g.successors n) (hm : R m) : g.HasRound (· ∈ path) := by
  have htrap := hpath.trap hedge
  refine h.hasRound_of_trap htrap (fun x hx hx' => ?_) hm hpath.mem_first
  obtain ⟨l, hl, -⟩ := htrap x hx'
  rw [hX x hx] at hl
  cases hl

/-! ## Groups along the way -/

/-- The test at vertex `n` keeps to the account `I` of what is open at each vertex: where `before`
are open at `n`, the account is right at all vertices to go on with, or the part of the graph is
left for one of the vertices `X`, with `opened` open. -/
def Keeps (g : Graph) (I : Nat → List Nat → Prop) (X opened : List Nat) (n : Nat)
    (before : List Nat) : Prop :=
  ∃ test after, g.test? n = some test ∧ test.nest before = some after ∧
    ∀ m ∈ g.successors n, I m after ∨ m ∈ X ∧ after = opened

namespace Keeps

variable {I I' : Nat → List Nat → Prop} {X X' opened opened' before after : List Nat} {n : Nat}

theorem mono (h : g.Keeps I X opened n before) (hI : ∀ m s, I m s → I' m s)
    (hX : ∀ m ∈ X, I' m opened ∨ m ∈ X' ∧ opened = opened') :
    g.Keeps I' X' opened' n before := by
  obtain ⟨test, after, htest, hnest, hnext⟩ := h
  refine ⟨test, after, htest, hnest, fun m hm => ?_⟩
  rcases hnext m hm with hm | ⟨hm, rfl⟩
  · exact .inl (hI m after hm)
  · exact hX m hm

theorem of_vertex {v : Vertex} (hv : g.vertices[n]? = some v)
    (hnest : v.automaton.test.nest before = some after)
    (hnext : ∀ m ∈ v.next, I m after ∨ m ∈ X ∧ after = opened) : g.Keeps I X opened n before :=
  ⟨_, after, test?_of_vertex hv, hnest, by rwa [successors_of_vertex hv]⟩

end Keeps

namespace Region

variable {E X : List Nat} {R : Nat → Prop}

/-- **Groups are nested.**  Where `opened` are open when a region is entered, there is an account of
what is open at each of its vertices to which all edges keep, and when the region is left, `opened`
are open again. -/
theorem exists_nesting (h : g.Region E R X) (opened : List Nat) :
    ∃ I : Nat → List Nat → Prop, (∀ e ∈ E, I e opened) ∧
      ∀ n s, I n s → R n ∧ g.Keeps I X opened n s := by
  induction h generalizing opened with
  | @vertex n a X hv ht hX =>
    refine ⟨fun m s => m = n ∧ s = opened, by simp, ?_⟩
    rintro m s ⟨rfl, rfl⟩
    exact ⟨rfl, .of_vertex hv (Test.nest_of_isPlain ht s) fun x hx => .inr ⟨hx, rfl⟩⟩
  | beside _ _ _ ih ih' =>
    obtain ⟨I, hE, hI⟩ := ih opened
    obtain ⟨I', hE', hI'⟩ := ih' opened
    refine ⟨fun n s => I n s ∨ I' n s, fun e he => ?_, ?_⟩
    · exact (List.mem_append.1 he).imp (hE e) (hE' e)
    · rintro n s (hn | hn)
      · exact ⟨.inl (hI n s hn).1, (hI n s hn).2.mono (fun _ _ => .inl) fun m hm => .inr ⟨hm, rfl⟩⟩
      · exact ⟨.inr (hI' n s hn).1,
          (hI' n s hn).2.mono (fun _ _ => .inr) fun m hm => .inr ⟨hm, rfl⟩⟩
  | before _ _ hskip hE' ih ih' =>
    obtain ⟨I, hentries, hI⟩ := ih opened
    obtain ⟨I', hentries', hI'⟩ := ih' opened
    refine ⟨fun n s => I n s ∨ I' n s, fun e he => .inl (hentries e he), ?_⟩
    rintro n s (hn | hn)
    · exact ⟨.inl (hI n s hn).1, (hI n s hn).2.mono (fun _ _ => .inl) fun m hm =>
        (hskip m hm).imp (fun hm => .inr (hentries' m hm)) fun hm => ⟨hm, rfl⟩⟩
    · exact ⟨.inr (hI' n s hn).1,
        (hI' n s hn).2.mono (fun _ _ => .inr) fun m hm => .inr ⟨hm, rfl⟩⟩
  | @group o c slot E X R ho hbody hc hslot hX ih =>
    obtain ⟨I, hE, hI⟩ := ih (slot :: opened)
    refine ⟨fun n s => n = o ∧ s = opened ∨ I n s ∨ n = c ∧ s = slot :: opened, by simp, ?_⟩
    rintro n s (⟨rfl, rfl⟩ | hn | ⟨rfl, rfl⟩)
    · exact ⟨.inl rfl, .of_vertex ho rfl fun m hm => .inl (.inr (.inl (hE m hm)))⟩
    · refine ⟨.inr (.inl (hI n s hn).1), (hI n s hn).2.mono (fun _ _ h => .inr (.inl h)) ?_⟩
      exact fun m hm => .inl (.inr (.inr ⟨List.mem_singleton.1 hm, rfl⟩))
    · exact ⟨.inr (.inr rfl), .of_vertex hc (if_pos rfl) fun m hm => .inr ⟨hm, rfl⟩⟩
  | @loop s e p q stop k isLazy E R hs he hbody hp hq hne ih =>
    obtain ⟨I, hE, hI⟩ := ih opened
    refine ⟨fun n t => (n = s ∨ n = e ∨ n = p ∨ n = q) ∧ t = opened ∨ I n t, by simp, ?_⟩
    rintro n t (⟨rfl | rfl | rfl | rfl, rfl⟩ | hn)
    · refine ⟨.inl rfl, .of_vertex hs rfl fun m hm => ?_⟩
      rcases mem_choice.1 hm with rfl | rfl
      · exact .inl (.inl ⟨.inr (.inl rfl), rfl⟩)
      · exact .inr ⟨List.mem_cons_self, rfl⟩
    · exact ⟨.inr (.inl rfl), .of_vertex he rfl fun m hm => .inl (.inr (hE m hm))⟩
    · refine ⟨.inr (.inr (.inr (.inl rfl))), .of_vertex hp rfl fun m hm => .inl (.inl ?_)⟩
      exact ⟨.inl (List.mem_singleton.1 hm), rfl⟩
    · exact ⟨.inr (.inr (.inr (.inr rfl))), .of_vertex hq rfl fun m hm => .inr ⟨hm, rfl⟩⟩
    · refine ⟨.inr (.inr (.inl (hI n t hn).1)), (hI n t hn).2.mono (fun _ _ => .inr) ?_⟩
      intro m hm
      simp only [List.mem_cons, List.not_mem_nil, or_false] at hm
      exact .inl (.inl ⟨.inr (.inr hm), rfl⟩)

end Region

/-- What is open after a path is told by an account to which all vertices before its end keep. -/
theorem nest_of_keeps {I : Nat → List Nat → Prop} {opened : List Nat} {m n : Nat}
    (hI : ∀ m s, I m s → m ≠ n ∧ g.Keeps I [n] opened m s)
    (hn : g.vertices[n]? = some (.plain .join [])) {path : List Nat} (hpath : g.Path m n path)
    {s : List Nat} (hm : I m s ∨ m = n ∧ s = opened) : g.nest path s = some opened := by
  induction hpath generalizing s with
  | single n =>
    rcases hm with hm | ⟨-, rfl⟩
    · exact absurd rfl (hI n s hm).1
    · simp [nest, test?_of_vertex hn, Vertex.plain, Test.nest]
  | step hedge _ ih =>
    rcases hm with hm | ⟨rfl, -⟩
    · obtain ⟨-, test, after, htest, hnest, hnext⟩ := hI _ s hm
      have hrest := ih hI hn ((hnext _ hedge).imp_right (And.imp_left List.mem_singleton.1))
      simpa [nest, htest, hnest] using hrest
    · rw [successors_of_vertex hn] at hedge
      cases hedge

/-- On every path through a region up to its only exit, what is opened is closed again. -/
theorem Region.nest_of_path {R : Nat → Prop} {m n : Nat} (h : g.Region [m] R [n]) (hout : ¬ R n)
    (hn : g.vertices[n]? = some (.plain .join [])) {path : List Nat} (hpath : g.Path m n path)
    (opened : List Nat) : g.nest path opened = some opened := by
  obtain ⟨I, hE, hI⟩ := h.exists_nesting opened
  have hkeeps : ∀ m s, I m s → m ≠ n ∧ g.Keeps I [n] opened m s := by
    intro m s hm
    refine ⟨?_, (hI m s hm).2⟩
    rintro rfl
    exact hout (hI m s hm).1
  exact nest_of_keeps hkeeps hn hpath (.inl (hE m List.mem_cons_self))

end Graph

end Backtrack
