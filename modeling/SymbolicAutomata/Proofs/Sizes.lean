import SymbolicAutomata.Proofs.Sessions
import SymbolicAutomata.Proofs.Walks
/-!
# The sizes of tables and caches do not show

A program calls operations of a manager. What it does next may depend on all answers and on the
numbers of nodes. Two new managers with tables and caches of any sizes give it the same references
and have the same number of nodes after each operation, since their nodes stay the same; only what
they have forgotten differs.
-/
namespace SymbolicAutomata

open Manager Bdd

/-- An operation of a manager or a question about its nodes. -/
inductive Request
  | call (c : Call)
  | cube (literals : List Int)
  | value (d : Domain) (number : Nat)
  | range (d : Domain) (lo hi : Nat)
  | implies (f g : Ref)
  | var (f : Ref)
  | low (f : Ref)
  | high (f : Ref)
  | cofactors (f : Ref) (v : Nat)
  | cofactorsBelow (f : Ref) (level : Nat)
  | evaluate (f : Ref) (assignment : Nat → Bool)
  | support (f : Ref)
  | descendants (fs : List Ref)
  | nodesOf (f : Ref)
  | bracket (f : Ref)

inductive Reply
  | refs (rs : List Ref)
  | number (n : Nat)
  | numbers (ns : List Nat)
  | truth (b : Bool)
  | text (s : String)
  deriving DecidableEq, Repr

/-- What a program has been told, last first: the answers, each with the number of nodes then. -/
abbrev Log := List (Reply × Nat)

def Log.refs (log : Log) : List Ref :=
  log.flatMap fun
    | (.refs rs, _) => rs
    | _ => []

namespace Request

def operands : Request → List Ref
  | call c => c.operands
  | cube _ | value _ _ | range _ _ _ => []
  | implies f g => [f, g]
  | var f | low f | high f | cofactors f _ | cofactorsBelow f _ => [f]
  | evaluate f _ | support f | nodesOf f | bracket f => [f]
  | descendants fs => fs

/-- The operands are nodes of the manager: a cell beyond the nodes is blank in a large table and
missing in a small one. Nodes made by hand decide before their children, and so do those of a cube,
whose literals are of distinct variables. -/
def Allowed (m : Manager) (q : Request) : Prop :=
  (∀ f ∈ q.operands, 0 < f.index ∧ f.index ≤ m.nodeCount) ∧
    match q with
    | call (.node v f g) => m.decidedBelow (v + 1) f = .ok true ∧
        m.decidedBelow (v + 1) g = .ok true
    | cube literals => (literals.map Int.natAbs).Nodup
    | _ => True

instance (m : Manager) (q : Request) : Decidable (q.Allowed m) :=
  @instDecidableAnd _ _ inferInstance (by split <;> infer_instance)

def run : Request → BddM Reply
  | call c => do return .refs [← c.run]
  | cube literals => do return .refs [← Bdd.cube literals]
  | value d number => do return .refs [← Bdd.value d number]
  | range d lo hi => do return .refs [← Bdd.range d lo hi]
  | implies f g => do return .truth (← Bdd.implies f g)
  | var f => do return .number (← ask (·.var f))
  | low f => do return .refs [← ask (·.low f)]
  | high f => do return .refs [← ask (·.high f)]
  | cofactors f v => do
    let (f0, f1) ← ask (·.cofactors f v)
    return .refs [f0, f1]
  | cofactorsBelow f level => do return .refs (← ask (·.cofactorsBelow f level))
  | evaluate f assignment => do
    return .truth (← ask (·.evaluate f fun v => .ok (assignment v)))
  | support f => do return .numbers (← ask (·.support f))
  | descendants fs => do return .numbers (← ask (·.descendants fs))
  | nodesOf f => do return .number (← ask (·.nodesOf f))
  | bracket f => do return .text (← ask (·.bracket f))

end Request

/-- A program hands over a reference, or calls an operation and goes on by the log. It answers the
calls of a replacement in the same way. -/
inductive Program
  | done (r : Ref)
  | request (q : Request) (next : Log → Program)
  | replace (f : Ref) (level : Nat) (answer next : Log → Program)

namespace Program

def note (a : Reply) : StateT Log BddM Log := do
  let n ← Bdd.ask fun m => .ok m.nodeCount
  modify ((a, n) :: ·)
  get

/-- The program at work. What is not allowed is refused. -/
def run : Program → StateT Log BddM Ref
  | done r => do
    if ← Bdd.ask fun m => .ok (decide (0 < r.index ∧ r.index ≤ m.nodeCount)) then return r
    else throw .outOfBounds
  | request q next => do
    if ← Bdd.ask fun m => .ok (decide (q.Allowed m)) then
      let a ← q.run
      (next (← note a)).run
    else throw .outOfBounds
  | replace f level answer next => do
    if ← Bdd.ask fun m => .ok (decide (0 < f.index ∧ f.index ≤ m.nodeCount)) then
      let r ← Bdd.replaceBelow f level fun t => do
        (answer (← note (.refs [t]))).run
      (next (← note (.refs [r]))).run
    else throw .outOfBounds

/-- The operations are called one after the other on the references given so far, last first. -/
def straight : List (List Ref → Request) → Log → Program
  | [], log => .done (log.refs.headD .one)
  | q :: qs, log => .request (q log.refs) (straight qs)

/-- Programs run one after the other. Of each it is told what it returned or how it failed, what is
in the log after it and how many nodes there are. -/
def trace : List Program → Log → Workspace → List (Except Failure Ref × Log × Nat)
  | [], _, _ => []
  | c :: cs, log, w =>
    match c.run log w with
    | .ok (r, log) w => (.ok r, log, w.current.nodeCount) :: trace cs log w
    | .error e w => (.error e, log, w.current.nodeCount) :: trace cs log w

end Program

variable {w w' : Workspace}

namespace Call

theorem run_mirrors {c : Call} (ht : w.Twins w') (hq : (Request.call c).Allowed w.current) :
    Mirrors w w' c.run fun r m => m.Has r := by
  have hc := ht.there.before.canonical
  have hhas : ∀ f ∈ c.operands, w.current.Has f := hq.1
  cases c with
  | literal v => exact literal_mirrors ht v
  | node v low high =>
    have hlow := hhas low (by simp [operands])
    have hhigh := hhas high (by simp [operands])
    exact (node_mirrors ht (denotes_eval hlow) (denotes_eval hhigh)
      (above_of_decidedBelow hc hlow hq.2.1) (above_of_decidedBelow hc hhigh hq.2.2)).imp
      fun _ _ _ hr => hr.has
  | ite f g h =>
    exact ite_mirrors ht (hhas f (by simp [operands])) (hhas g (by simp [operands]))
      (hhas h (by simp [operands]))
  | conj f g => exact conj_mirrors ht (hhas f (by simp [operands])) (hhas g (by simp [operands]))
  | disj f g => exact disj_mirrors ht (hhas f (by simp [operands])) (hhas g (by simp [operands]))
  | exor f g =>
    have hg := hhas g (by simp [operands])
    exact ite_mirrors ht (hhas f (by simp [operands])) (has_neg.2 hg) hg
  | equiv f g =>
    have hg := hhas g (by simp [operands])
    exact ite_mirrors ht (hhas f (by simp [operands])) hg (has_neg.2 hg)
  | imply f g =>
    exact ite_mirrors ht (hhas f (by simp [operands])) (hhas g (by simp [operands])) hc.has_one
  | diff f g => exact diff_mirrors ht (hhas f (by simp [operands])) (hhas g (by simp [operands]))
  | conjAll fs => exact conjAll_mirrors ht hhas
  | disjAll fs => exact disjAll_mirrors ht hhas
  | restrict f fixed => exact restrict_mirrors ht (hhas f (by simp [operands]))
  | exist f d => exact exist_mirrors ht (hhas f (by simp [operands]))
  | univ f d => exact univ_mirrors ht (hhas f (by simp [operands]))
  | joinExist f g d =>
    exact joinExist_mirrors ht (hhas f (by simp [operands])) (hhas g (by simp [operands]))
  | rename f names => exact rename_mirrors ht (hhas f (by simp [operands]))
  | select f level t => exact selectBelow_mirrors ht (hhas f (by simp [operands]))

end Call

namespace Request

variable {q : Request}

theorem allowed_iff (ht : w.Twins w') : q.Allowed w'.current ↔ q.Allowed w.current := by
  unfold Allowed
  rw [ht.count]
  refine and_congr_right fun hhas => ?_
  cases q with
  | call c =>
    cases c with
    | node v f g =>
      simp only [ht.there.grows.decidedBelow_eq (hhas f (by simp [operands, Call.operands])),
        ht.there.grows.decidedBelow_eq (hhas g (by simp [operands, Call.operands]))]
    | _ => rfl
  | _ => rfl

theorem run_mirrors (ht : w.Twins w') (hq : q.Allowed w.current) :
    Mirrors w w' q.run fun _ _ => True := by
  have hg := ht.there.grows
  have hhas : ∀ f ∈ q.operands, w.current.Has f := hq.1
  have hreply : ∀ {α : Type} {x : BddM α} {Q : α → Manager → Prop} (reply : α → Reply),
      Mirrors w w' x Q → Mirrors w w' (do return reply (← x)) fun _ _ => True :=
    fun reply h => h.bind fun _ _ _ ht' _ _ => Mirrors.pure ht' trivial
  have hask : ∀ {α : Type} {ask : Manager → Except Failure α} (reply : α → Reply),
      ask w'.current = ask w.current →
      Mirrors w w' (do return reply (← Bdd.ask ask)) fun _ _ => True :=
    fun reply heq => Mirrors.ask_bind ht heq fun _ _ => Mirrors.pure ht trivial
  cases q with
  | call c => exact hreply (fun r => .refs [r]) (c.run_mirrors ht hq)
  | cube literals => exact hreply (fun r => .refs [r]) (cube_mirrors ht (.inr hq.2))
  | value d number => exact hreply (fun r => .refs [r]) (value_mirrors ht)
  | range d lo hi => exact hreply (fun r => .refs [r]) (range_mirrors ht)
  | implies f g =>
    exact hreply .truth (implies_mirrors ht (hhas f (by simp [operands]))
      (hhas g (by simp [operands])))
  | var f => exact hask .number (hg.var (hhas f (by simp [operands])))
  | low f => exact hask (fun r => .refs [r]) (hg.low (hhas f (by simp [operands])))
  | high f => exact hask (fun r => .refs [r]) (hg.high (hhas f (by simp [operands])))
  | cofactors f v =>
    exact hask (fun fs : Ref × Ref => .refs [fs.1, fs.2])
      (hg.cofactors (hhas f (by simp [operands])) v)
  | cofactorsBelow f level =>
    exact hask .refs (ht.cofactorsBelow (hhas f (by simp [operands])) level)
  | evaluate f assignment => exact hask .truth (ht.evaluate (hhas f (by simp [operands])) _)
  | support f => exact hask .numbers (ht.support (hhas f (by simp [operands])))
  | descendants fs => exact hask .numbers (ht.descendants fs hhas).1
  | nodesOf f => exact hask .number (ht.nodesOf (hhas f (by simp [operands])))
  | bracket f => exact hask .text (ht.bracket (hhas f (by simp [operands])))

end Request

namespace Program

theorem note_mirrors {α : Type} {a : Reply} {log : Log} {y : Log → StateT Log BddM α}
    {Q : α × Log → Manager → Prop} (ht : w.Twins w')
    (hy : ∀ log', Mirrors w w' (y log' log') Q) :
    Mirrors w w' ((note a >>= y) log) Q := by
  have hrun : (note a >>= y) log = (do
      let n ← Bdd.ask fun m => .ok m.nodeCount
      y ((a, n) :: log) ((a, n) :: log)) := rfl
  rw [hrun]
  exact Mirrors.ask_bind ht (by rw [ht.count]) fun n _ => hy _

theorem check_mirrors {q : Manager → Prop} [∀ m, Decidable (q m)] {log : Log}
    {x y : StateT Log BddM Ref} {Q : Ref × Log → Manager → Prop} (ht : w.Twins w')
    (hq : q w'.current ↔ q w.current) (hx : q w.current → Mirrors w w' (x log) Q)
    (hy : ¬ q w.current → Mirrors w w' (y log) Q) :
    Mirrors w w' ((do if ← Bdd.ask fun m => .ok (decide (q m)) then x else y :
      StateT Log BddM Ref) log) Q := by
  rw [state_lift_bind]
  refine Mirrors.ask_bind ht (by simp only [hq]) fun b hb => ?_
  obtain rfl := Except.ok.inj hb
  by_cases h : q w.current
  · rw [if_pos (by simpa using h)]
    exact hx h
  · rw [if_neg (by simpa using h)]
    exact hy h

/-- A program has the same results in both managers, by induction on what it does. -/
theorem run_mirrors {c : Program} {log : Log} (ht : w.Twins w') :
    Mirrors w w' (c.run log) fun a m => m.Has a.1 := by
  induction c generalizing w w' log with
  | done r =>
    refine check_mirrors ht (by rw [ht.count]) (fun h => Mirrors.pure ht h) fun _ =>
      Mirrors.throw ht
  | request q next ih =>
    refine check_mirrors ht (Request.allowed_iff ht) (fun h => ?_) fun _ => Mirrors.throw ht
    exact (q.run_mirrors ht h).state_lift fun a v v' ht1 _ _ =>
      note_mirrors ht1 fun log' => ih log' ht1
  | replace f level answer next ihanswer ihnext =>
    refine check_mirrors ht (by rw [ht.count]) (fun h => ?_) fun _ => Mirrors.throw ht
    refine (replaceBelow_mirrors (fun v v' t st ht1 _ => ?_) ht h).state_bind
      fun r st v v' ht1 _ _ => note_mirrors ht1 fun log' => ihnext log' ht1
    exact note_mirrors ht1 fun log' => ihanswer log' ht1

theorem trace_eq_of_twins {cs : List Program} {log : Log} (ht : w.Twins w') :
    trace cs log w = trace cs log w' := by
  induction cs generalizing log w w' with
  | nil => rfl
  | cons c cs ih =>
    unfold trace
    have hmirrors : Mirrors w w' (c.run log) _ := run_mirrors ht
    rcases hmirrors.cases with
      ⟨⟨r, log'⟩, v, v', hx, hx', ht', -, -⟩ | ⟨e, v, v', hx, hx', ht', -⟩
    · simp only [hx, hx', ht'.count, ih ht']
    · simp only [hx, hx', ht'.count, ih ht']

end Program

section New

variable {id storageBits cacheBits storageBits' cacheBits' : Nat} {m m' : Manager}

theorem cells_new (h : Manager.new id storageBits cacheBits = .ok m) :
    m.id = id ∧ m.nodeCount = 1 ∧ ∀ i ≤ 1, m.nodes.values[i]? = some default := by
  obtain ⟨t, hn, h⟩ := exists_of_bind_eq_ok h
  obtain ⟨c, -, h⟩ := exists_of_bind_eq_ok h
  obtain rfl : ⟨id, t.alloc, c⟩ = m := Except.ok.inj h
  exact ⟨rfl, (Table.sound_alloc_new hn).2.1, fun i hi => Table.cells_alloc_new hn hi⟩

theorem leads_new (parked : List Manager) (h : Manager.new id storageBits cacheBits = .ok m)
    (h' : Manager.new id storageBits' cacheBits' = .ok m') :
    Workspace.Leads ⟨m, parked⟩ ⟨m', parked⟩ where
  before := wellFormed_new h
  after := wellFormed_new h'
  grows := by
    obtain ⟨hid, hcount, hcells⟩ := cells_new h
    obtain ⟨hid', hcount', hcells'⟩ := cells_new h'
    refine ⟨hid'.trans hid.symm, by rw [hcount, hcount'], fun i hi => ?_⟩
    rw [hcount] at hi
    rw [hcells i hi, hcells' i hi]
  parked := rfl

end New

/-- Whatever programs run, a manager gives them the same references and has the same numbers of
nodes, whichever sizes its table and its cache were given. -/
theorem Program.trace_of_sizes {id storageBits cacheBits storageBits' cacheBits' : Nat}
    {m m' : Manager} (h : Manager.new id storageBits cacheBits = .ok m)
    (h' : Manager.new id storageBits' cacheBits' = .ok m') (parked : List Manager)
    (cs : List Program) : trace cs [] ⟨m, parked⟩ = trace cs [] ⟨m', parked⟩ :=
  trace_eq_of_twins ⟨leads_new parked h h', leads_new parked h' h, settled_new h, settled_new h'⟩

/-- An exclusive or whose first variable is quantified, with a table of one cell and a cache of one
slot and with larger ones. -/
theorem Program.trace_of_sizes_exor :
    let cs := [straight [fun _ => .call (.literal 1), fun _ => .call (.literal 2),
      fun rs => .call (.exor (rs.getD 1 .one) (rs.getD 0 .one)),
      fun rs => .call (.exist (rs.headD .one) ⟨1, 1, Nat.one_ne_zero⟩)] []]
    ∃ m m', Manager.new 0 0 0 = .ok m ∧ Manager.new 0 5 4 = .ok m' ∧
      trace cs [] ⟨m, []⟩ = trace cs [] ⟨m', []⟩ ∧
      trace cs [] ⟨m, []⟩ = [(.ok .one,
        [(.refs [.one], 4), (.refs [⟨9⟩], 4), (.refs [⟨6⟩], 3), (.refs [⟨4⟩], 2)], 4)] :=
  ⟨_, _, rfl, rfl, @trace_of_sizes 0 0 0 5 4 _ _ rfl rfl [] _, by decide +kernel⟩

end SymbolicAutomata
