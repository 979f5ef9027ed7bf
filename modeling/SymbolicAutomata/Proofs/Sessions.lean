import SymbolicAutomata.Proofs.Quantifiers
import SymbolicAutomata.Proofs.Selections
import Mathlib.Logic.Relation
/-!
# Sessions with a manager

A client calls operations on references of its manager, and may decide what to call next from all
the references it has been given. It answers the calls of a replacement in the same way, so its
answers may make nodes and may depend on those before. Whatever clients do, and whichever of their
operations fail, the diagrams stay canonical, what is remembered stays right, and no reference
changes its meaning.
-/
namespace SymbolicAutomata

open Manager

/-- An operation of a manager. -/
inductive Call
  | literal (v : Nat)
  | node (v : Nat) (low high : Ref)
  | ite (f g h : Ref)
  | conj (f g : Ref)
  | disj (f g : Ref)
  | exor (f g : Ref)
  | equiv (f g : Ref)
  | imply (f g : Ref)
  | diff (f g : Ref)
  | conjAll (fs : List Ref)
  | disjAll (fs : List Ref)
  | restrict (f : Ref) (fixed : Fixing)
  | exist (f : Ref) (d : Domain)
  | univ (f : Ref) (d : Domain)
  | joinExist (f g : Ref) (d : Domain)
  | rename (f : Ref) (names : Renaming)
  | select (f : Ref) (level : Nat) (t : Ref)

namespace Call

def operands : Call → List Ref
  | literal _ => []
  | node _ low high => [low, high]
  | ite f g h => [f, g, h]
  | conj f g | disj f g | exor f g | equiv f g | imply f g | diff f g => [f, g]
  | conjAll fs | disjAll fs => fs
  | restrict f _ | exist f _ | univ f _ | rename f _ | select f _ _ => [f]
  | joinExist f g _ => [f, g]

/-- The operands belong to the manager, a new node decides before its children, and no variable is
renamed to 0. -/
def Allowed (m : Manager) (c : Call) : Prop :=
  (∀ f ∈ c.operands, 0 < f.index ∧ f.index ≤ m.nodeCount) ∧
    match c with
    | node v low high => m.decidedBelow (v + 1) low = .ok true ∧
        m.decidedBelow (v + 1) high = .ok true
    | rename _ names => ∀ e ∈ names.entries, 0 < e.2
    | _ => True

def run : Call → BddM Ref
  | literal v => Bdd.literal v
  | node v low high => Bdd.node v low high
  | ite f g h => Bdd.ite f g h
  | conj f g => Bdd.conj f g
  | disj f g => Bdd.disj f g
  | exor f g => Bdd.exor f g
  | equiv f g => Bdd.equiv f g
  | imply f g => Bdd.imply f g
  | diff f g => Bdd.diff f g
  | conjAll fs => Bdd.conjAll fs
  | disjAll fs => Bdd.disjAll fs
  | restrict f fixed => Bdd.restrict f fixed
  | exist f d => Bdd.exist f d
  | univ f d => Bdd.univ f d
  | joinExist f g d => Bdd.joinExist f g d
  | rename f names => Bdd.rename f names
  | select f level t => Bdd.selectBelow f level t

instance (m : Manager) (c : Call) : Decidable (c.Allowed m) := by
  unfold Allowed
  cases c <;> exact inferInstance

end Call

/-- A client hands over a reference, or calls an operation and goes on. What it does next depends on
the references it has been given so far, last first. -/
inductive Client
  | done (r : Ref)
  | call (c : Call) (next : List Ref → Client)
  | replace (f : Ref) (level : Nat) (answer next : List Ref → Client)

namespace Client

/-- The client at work. It may not use what is no reference of the manager. -/
def run : Client → StateT (List Ref) BddM Ref
  | done r => do
    if ← Bdd.ask fun m => .ok (decide (0 < r.index ∧ r.index ≤ m.nodeCount)) then return r
    else throw .outOfBounds
  | call c next => do
    if ← Bdd.ask fun m => .ok (decide (c.Allowed m)) then
      let r ← c.run
      modify (r :: ·)
      (next (← get)).run
    else throw .outOfBounds
  | replace f level answer next => do
    if ← Bdd.ask fun m => .ok (decide (0 < f.index ∧ f.index ≤ m.nodeCount)) then
      let r ← Bdd.replaceBelow f level fun t => do
        modify (t :: ·)
        (answer (← get)).run
      modify (r :: ·)
      (next (← get)).run
    else throw .outOfBounds

end Client

namespace Call

variable {w : Workspace}

theorem Allowed.has {m : Manager} {c : Call} (h : c.Allowed m) {f : Ref} (hf : f ∈ c.operands) :
    m.Has f := h.1 f hf

/-- The check of a node's operands is the order of the diagram. -/
theorem above_of_decidedBelow {m : Manager} (hm : m.Canonical) {v : Nat} {f : Ref} (hf : m.Has f)
    (h : m.decidedBelow (v + 1) f = .ok true) : m.Above v f := by
  classical
  rw [hm.decidedBelow_eq hf] at h
  intro n hn
  have hd : m.DecidedBelow (v + 1) f := by simpa using h
  exact hd n hn

/-- An operation on references of the manager returns one, or fails and leaves the diagrams as they
should be. -/
theorem run_keeps {c : Call} (hw : w.current.WellFormed) (hc : c.Allowed w.current) :
    Bdd.Runs True w c.run fun r m => m.Has r := by
  have hden : ∀ f ∈ c.operands, w.current.Denotes f fun s => w.current.eval f s = true :=
    fun f hf => denotes_eval (hc.has hf)
  have hone : ∀ {x : BddM Ref} {F : Ref → Manager → Assignment → Prop},
      Bdd.Yields w x (fun r m => m.Denotes r (F r m)) → Bdd.Runs True w x fun r m => m.Has r :=
    fun h => h.mono (fun _ => trivial) fun _ _ _ hr => hr.has
  cases c with
  | literal v =>
    rcases Nat.eq_zero_or_pos v with rfl | hv
    · exact Bdd.Runs.throw hw trivial
    · exact hone (Bdd.literal_yields hw hv)
  | node v low high =>
    rcases Nat.eq_zero_or_pos v with rfl | hv
    · exact Bdd.Runs.throw hw trivial
    · have hlow := hden low (by simp [operands])
      have hhigh := hden high (by simp [operands])
      exact hone (Bdd.node_yields hw hv hlow hhigh
        (above_of_decidedBelow hw.canonical hlow.has hc.2.1)
        (above_of_decidedBelow hw.canonical hhigh.has hc.2.2))
  | ite f g h =>
    exact hone (Bdd.ite_yields hw (hden f (by simp [operands])) (hden g (by simp [operands]))
      (hden h (by simp [operands])))
  | conj f g =>
    exact hone (Bdd.conj_yields hw (hden f (by simp [operands])) (hden g (by simp [operands])))
  | disj f g =>
    exact hone (Bdd.disj_yields hw (hden f (by simp [operands])) (hden g (by simp [operands])))
  | exor f g =>
    exact hone (Bdd.exor_yields hw (hden f (by simp [operands])) (hden g (by simp [operands])))
  | equiv f g =>
    exact hone (Bdd.equiv_yields hw (hden f (by simp [operands])) (hden g (by simp [operands])))
  | imply f g =>
    exact hone (Bdd.imply_yields hw (hden f (by simp [operands])) (hden g (by simp [operands])))
  | diff f g =>
    exact hone (Bdd.diff_yields hw (hden f (by simp [operands])) (hden g (by simp [operands])))
  | conjAll fs =>
    have hfs : ∀ p ∈ fs.map fun f => (f, fun s => w.current.eval f s = true),
        w.current.Denotes p.1 p.2 := by simpa [operands] using hden
    have h := Bdd.conjAll_yields hw hfs
    rw [List.map_map, Function.comp_def, List.map_id'] at h
    exact hone h
  | disjAll fs =>
    have hfs : ∀ p ∈ fs.map fun f => (f, fun s => w.current.eval f s = true),
        w.current.Denotes p.1 p.2 := by simpa [operands] using hden
    have h := Bdd.disjAll_yields hw hfs
    rw [List.map_map, Function.comp_def, List.map_id'] at h
    exact hone h
  | restrict f fixed => exact hone (Bdd.restrict_yields hw (hden f (by simp [operands])))
  | exist f d => exact Bdd.exist_keeps hw (hc.has (by simp [operands]))
  | univ f d =>
    refine .bind (Bdd.exist_keeps hw (has_neg.2 (hc.has (by simp [operands])))) fun r w' hl hr => ?_
    exact Bdd.Runs.pure hl.after (has_neg.2 hr)
  | joinExist f g d =>
    refine .bind (.weaken (Bdd.conj_yields hw (hden f (by simp [operands]))
      (hden g (by simp [operands])))) fun r w' hl hr => ?_
    exact Bdd.exist_keeps hl.after hr.has
  | rename f names =>
    exact hone (Bdd.rename_yields (fun v => Renaming.apply_pos hc.2) hw
      (hden f (by simp [operands])))
  | select f level t => exact hone (Bdd.selectBelow_yields hw (hc.has (by simp [operands])))

end Call

namespace Client

variable {w : Workspace}

def Knows (known : List Ref) (m : Manager) : Prop := ∀ f ∈ known, m.Has f

theorem Knows.later {w' : Workspace} {known : List Ref} (h : Knows known w.current)
    (hl : w.Leads w') : Knows known w'.current := fun f hf => hl.grows.has (h f hf)

theorem Knows.cons {m : Manager} {known : List Ref} {r : Ref} (h : Knows known m) (hr : m.Has r) :
    Knows (r :: known) m := List.forall_mem_cons.2 ⟨hr, h⟩

theorem ask_decide {q : Manager → Prop} [∀ m, Decidable (q m)] {x y : StateT (List Ref) BddM Ref}
    {known : List Ref} {p : Prop} {Q : Ref × List Ref → Manager → Prop}
    (hx : q w.current → Bdd.Runs p w (x known) Q)
    (hy : ¬ q w.current → Bdd.Runs p w (y known) Q) :
    Bdd.Runs p w ((do if ← Bdd.ask fun m => .ok (decide (q m)) then x else y :
      StateT (List Ref) BddM Ref) known) Q := by
  refine .state_ask rfl ?_
  by_cases h : q w.current
  · rw [if_pos (by simpa using h)]
    exact hx h
  · rw [if_neg (by simpa using h)]
    exact hy h

/-- The client gets along with the manager, by induction on what it does. A replacement answers by
the induction hypothesis for each answer. -/
theorem run_keeps {c : Client} {known : List Ref} (hw : w.current.WellFormed)
    (hk : Knows known w.current) :
    Bdd.Runs True w (c.run known) fun a m => m.Has a.1 ∧ Knows a.2 m := by
  induction c generalizing w known with
  | done r =>
    exact ask_decide (fun h => Bdd.Runs.pure hw ⟨h, hk⟩) fun _ => Bdd.Runs.throw hw trivial
  | call c next ih =>
    refine ask_decide (fun h => ?_) fun _ => Bdd.Runs.throw hw trivial
    refine .state_lift (c.run_keeps hw h) fun r w1 hl1 hr => ?_
    exact ih (r :: known) hl1.after ((hk.later hl1).cons hr)
  | replace f level answer next ihanswer ihnext =>
    refine ask_decide (fun h => ?_) fun _ => Bdd.Runs.throw hw trivial
    have haccords : Bdd.Accords True (fun t => do modify (t :: ·); (answer (← get)).run) Knows := by
      refine ⟨fun w' t st hw' ht hst => ?_, fun _ _ _ hl hst => hst.later hl⟩
      exact (ihanswer (t :: st) hw' (hst.cons ht)).imp fun a w'' _ ha => ⟨ha.2, ha.1⟩
    refine .state_bind (Bdd.replaceBelow_runs hw h haccords.replaces hk) fun r st w1 hl1 hr => ?_
    exact ihnext (r :: st) hl1.after (Knows.cons hr.1 hr.2.1)

end Client

/-- A manager at work, and the references that clients have been given. -/
structure Session where
  workspace : Workspace
  known : List Ref

namespace Session

inductive Begins : Session → Prop
  | new {id storageBits cacheBits : Nat} {m : Manager} (parked : List Manager)
      (made : Manager.new id storageBits cacheBits = .ok m) : Begins ⟨⟨m, parked⟩, []⟩

/-- A client runs to its end or fails on the way. -/
inductive Step : Session → Session → Prop
  | returns {c : Client} {w w' : Workspace} {r : Ref} {known known' : List Ref}
      (run : c.run known w = .ok (r, known') w') : Step ⟨w, known⟩ ⟨w', r :: known'⟩
  | fails {c : Client} {w w' : Workspace} {e : Failure} {known : List Ref}
      (run : c.run known w = .error e w') : Step ⟨w, known⟩ ⟨w', known⟩

abbrev Later : Session → Session → Prop := Relation.ReflTransGen Step

def Reachable (s : Session) : Prop := ∃ s₀, Begins s₀ ∧ Later s₀ s

structure Good (s : Session) : Prop where
  wellFormed : s.workspace.current.WellFormed
  knows : Client.Knows s.known s.workspace.current

variable {s t : Session}

theorem Begins.good (h : Begins s) : s.Good := by
  cases h with
  | new parked made => exact ⟨wellFormed_new made, fun f hf => by simp at hf⟩

theorem Good.step (h : s.Good) (hst : Step s t) :
    s.workspace.Leads t.workspace ∧ t.Good := by
  cases hst with
  | @returns c w w' r known known' run =>
    have hr := Client.run_keeps (c := c) h.wellFormed h.knows
    simp only [Bdd.Runs, run] at hr
    obtain ⟨hl, hr, hk⟩ := hr
    exact ⟨hl, hl.after, hk.cons hr⟩
  | @fails c w w' e known run =>
    have hr := Client.run_keeps (c := c) h.wellFormed h.knows
    simp only [Bdd.Runs, run] at hr
    exact ⟨hr.2, hr.2.after, h.knows.later hr.2⟩

theorem Good.later (h : s.Good) (hst : Later s t) :
    s.workspace.Leads t.workspace ∧ t.Good := by
  induction hst with
  | refl => exact ⟨.refl h.wellFormed, h⟩
  | tail _ hstep ih =>
    obtain ⟨hl, hg⟩ := ih.2.step hstep
    exact ⟨ih.1.trans hl, hg⟩

theorem Reachable.good (h : s.Reachable) : s.Good := by
  obtain ⟨s₀, hs₀, hl⟩ := h
  exact (hs₀.good.later hl).2

/-- In every reachable session the nodes are ordered, reduced and stored once, so equality of
references is equality of functions; and what a reference means never changes. As long as indices
have 31 bits, a reference is its packed form. -/
theorem canonical_of_reachable (h : s.Reachable) :
    (∀ i n, s.workspace.current.Stores i n →
      0 < n.var ∧ n.low ≠ n.high ∧ n.high.negated = false ∧
        ∀ child ∈ [n.low, n.high], child.index < i ∧
          ∀ k, s.workspace.current.Stores child.index k → n.var < k.var) ∧
    (∀ i j n, s.workspace.current.Stores i n → s.workspace.current.Stores j n → i = j) ∧
    (∀ f ∈ s.known, s.workspace.current.Has f) ∧
    (s.workspace.current.nodeCount < 2 ^ 31 →
      ∀ f, s.workspace.current.Has f → Ref.pack f.index f.negated = f) ∧
    (∀ f g, s.workspace.current.Has f → s.workspace.current.Has g →
      (f = g ↔ ∀ a : Assignment, s.workspace.current.evaluate f (fun v => .ok (a v)) =
        s.workspace.current.evaluate g fun v => .ok (a v))) ∧
    ∀ t, Later s t → ∀ f, s.workspace.current.Has f → t.workspace.current.Has f ∧
      ∀ a : Assignment, ∃ b, s.workspace.current.evaluate f (fun v => .ok (a v)) = .ok b ∧
        t.workspace.current.evaluate f (fun v => .ok (a v)) = .ok b := by
  have hgood := h.good
  have hc := hgood.wellFormed.canonical
  refine ⟨fun i n hn => ?_, hc.shared, hgood.knows, fun hcount f hf => ?_,
    fun f g hf hg => ?_, fun t hst f hf => ?_⟩
  · have ho := hc.orderly i n hn
    refine ⟨ho.var_pos, ho.differ, ho.regular, ?_⟩
    rintro child hchild
    rcases List.mem_pair.1 hchild with rfl | rfl
    · exact ⟨ho.low_lt, ho.low_above⟩
    · exact ⟨ho.high_lt, ho.high_above⟩
  · have hlt : f.index < Nat.pow 2 31 := Nat.lt_of_le_of_lt hf.2 hcount
    rw [Ref.pack, Nat.mod_eq_of_lt hlt, f.of_index_negated]
  · constructor
    · rintro rfl a
      rfl
    · intro heq
      refine hc.eq_of_eval_eq hf hg fun a => ?_
      have := heq a
      rw [hc.evaluate_eq hf, hc.evaluate_eq hg] at this
      exact Except.ok.inj this
  · obtain ⟨hl, hgt⟩ := hgood.later hst
    have hft := hl.grows.has hf
    refine ⟨hft, fun a => ⟨_, hc.evaluate_eq hf a, ?_⟩⟩
    rw [hgt.wellFormed.canonical.evaluate_eq hft, hl.eval hf]

theorem canonical_of_reachable_conj : ∃ s : Session, s.Reachable ∧
    s.known.length = 4 ∧ s.workspace.current.nodeCount = 4 ∧
    ∀ i j n, s.workspace.current.Stores i n → s.workspace.current.Stores j n → i = j := by
  have hrun : ∃ m w r known, Manager.new 0 1 1 = .ok m ∧
      Client.run (.call (.literal 2) fun xs => .call (.literal 1) fun ys =>
        .call (.conj (xs.headD .one) (-ys.headD .one)) fun zs => .done (-zs.headD .one)) []
        ⟨m, []⟩ = .ok (r, known) w ∧ known.length = 3 ∧ w.current.nodeCount = 4 :=
    ⟨_, _, _, _, rfl, rfl, rfl, rfl⟩
  obtain ⟨m, w, r, known, hm, hrun, hlength, hcount⟩ := hrun
  have hs : Reachable ⟨w, r :: known⟩ := ⟨_, .new [] hm, .single (.returns hrun)⟩
  exact ⟨_, hs, by simp [hlength], hcount, (canonical_of_reachable hs).2.1⟩

theorem exists_reachable_literals : ∃ s : Session, s.Reachable ∧
    s.workspace.current.Has (.of 2 false) ∧ s.workspace.current.Has (.of 3 false) := by
  have hrun : ∃ m w, Manager.new 0 1 1 = .ok m ∧
      Client.run (.call (.literal 1) fun _ => .call (.literal 2) fun ys => .done (ys.headD .one)) []
        ⟨m, []⟩ = .ok (.of 3 false, [.of 3 false, .of 2 false]) w ∧ w.current.nodeCount = 3 :=
    ⟨_, _, rfl, rfl, rfl⟩
  obtain ⟨m, w, hm, hrun, hcount⟩ := hrun
  refine ⟨_, ⟨_, .new [] hm, .single (.returns hrun)⟩, ⟨by decide, ?_⟩, by decide, ?_⟩
  · rw [hcount]
    decide
  · rw [hcount]
    decide

/-- In every reachable session the conditional of any three references ends without failure, and has
the value of the second where the first is true and of the third elsewhere. -/
theorem ite_of_reachable {f g h : Ref} (hs : s.Reachable) (hf : s.workspace.current.Has f)
    (hg : s.workspace.current.Has g) (hh : s.workspace.current.Has h) :
    ∃ r w', Bdd.ite f g h s.workspace = .ok r w' ∧ w'.current.Has r ∧
      ∀ a : Assignment, ∃ b c, s.workspace.current.evaluate f (fun v => .ok (a v)) = .ok b ∧
        s.workspace.current.evaluate (if b then g else h) (fun v => .ok (a v)) = .ok c ∧
        w'.current.evaluate r (fun v => .ok (a v)) = .ok c := by
  have hw := hs.good.wellFormed
  have hc := hw.canonical
  obtain ⟨r, w', hrun, hl, hr⟩ := Bdd.yields_iff.1
    (Bdd.ite_yields hw (denotes_eval hf) (denotes_eval hg) (denotes_eval hh))
  refine ⟨r, w', hrun, hr.has, fun a => ⟨_, s.workspace.current.eval
    (if s.workspace.current.eval f a then g else h) a, hc.evaluate_eq hf a, ?_, ?_⟩⟩
  · refine hc.evaluate_eq ?_ a
    split_ifs
    · exact hg
    · exact hh
  · rw [hl.after.canonical.evaluate_eq hr.has, Except.ok.injEq, Bool.eq_iff_iff, hr.holds]
    cases s.workspace.current.eval f a <;> simp

theorem ite_of_reachable_literals : ∃ (s : Session) (f g r : Ref) (w' : Workspace),
    s.Reachable ∧ s.workspace.current.Has f ∧ s.workspace.current.Has g ∧ f ≠ g ∧
      Bdd.ite f g (-f) s.workspace = .ok r w' := by
  obtain ⟨s, hs, hf, hg⟩ := exists_reachable_literals
  obtain ⟨r, w', hite, -⟩ := ite_of_reachable hs hf hg (has_neg.2 hf)
  exact ⟨s, _, _, r, w', hs, hf, hg, by decide, hite⟩

/-- In every reachable session the quantifiers end without failure, for every domain that has an
end. What they return depends on no variable of the domain, and says of the assignments that differ
on the domain at most whether one of them satisfies the function, whether all of them do, or whether
one satisfies both functions. -/
theorem quantifiers_of_reachable {f g : Ref} {d : Domain} (hs : s.Reachable)
    (hf : s.workspace.current.Has f) (hg : s.workspace.current.Has g)
    (hd : d.base + d.len < 2 ^ 32) :
    Bdd.Eliminates d s.workspace (Bdd.exist f d) (fun a => ∃ b : Assignment, AgreeOff d a b ∧
      s.workspace.current.evaluate f (fun v => .ok (b v)) = .ok true) ∧
    Bdd.Eliminates d s.workspace (Bdd.univ f d) (fun a => ∀ b : Assignment, AgreeOff d a b →
      s.workspace.current.evaluate f (fun v => .ok (b v)) = .ok true) ∧
    Bdd.Eliminates d s.workspace (Bdd.joinExist f g d) fun a => ∃ b : Assignment, AgreeOff d a b ∧
      s.workspace.current.evaluate f (fun v => .ok (b v)) = .ok true ∧
      s.workspace.current.evaluate g (fun v => .ok (b v)) = .ok true := by
  have hw := hs.good.wellFormed
  have hstop : d.stop = .ok (d.base + d.len) := Domain.stop_eq_ok_iff.2 ⟨hd, rfl⟩
  have hF := denotes_eval hf
  have hG := denotes_eval hg
  simp only [hw.canonical.evaluate_eq_true_iff hf, hw.canonical.evaluate_eq_true_iff hg]
  refine ⟨.of_yields (Bdd.exist_yields hstop hw hF) fun a b hab => ?_,
    .of_yields (Bdd.univ_yields hstop hw hF) fun a b hab => ?_,
    .of_yields (Bdd.joinExist_yields hstop hw hF hG) fun a b hab => ?_⟩
  all_goals simp only [hab.congr]

/-- In a session with the literals of the variables 1 and 2, the first variable is eliminated from
their conjunction. -/
theorem quantifiers_of_reachable_literals : ∃ (s : Session) (f g : Ref), s.Reachable ∧
    s.workspace.current.Has f ∧ s.workspace.current.Has g ∧ f ≠ g ∧
    Bdd.Eliminates ⟨1, 1, by decide⟩ s.workspace (Bdd.joinExist f g ⟨1, 1, by decide⟩)
      fun a => ∃ b : Assignment, AgreeOff ⟨1, 1, by decide⟩ a b ∧
        s.workspace.current.evaluate f (fun v => .ok (b v)) = .ok true ∧
        s.workspace.current.evaluate g (fun v => .ok (b v)) = .ok true := by
  obtain ⟨s, hs, hf, hg⟩ := exists_reachable_literals
  exact ⟨s, _, _, hs, hf, hg, by decide, (quantifiers_of_reachable hs hf hg (by decide)).2.2⟩

end Session

end SymbolicAutomata
