import SymbolicAutomata.Simulation
import SymbolicAutomata.Proofs.Encodings
import Mathlib.Order.Bounds.Defs
/-!
# Simulation between automata

A relation between states is a simulation if it survives as a set of nodes of the game. A challenge
names all letters of an edge at once, and the answers cover them jointly, so each letter may be
answered by another state. The nodes that remain when no more can be removed are the greatest set
that survives in itself, and their pairs the greatest simulation.
-/
namespace SymbolicAutomata

open Manager Bdd

/-- The letters that a challenge is about are a set of letters, and not the empty one. -/
def GameNode.Labelled (m : Manager) : GameNode → Prop
  | .main _ _ => True
  | .challenge _ _ on => on.isEmpty = false ∧ ∃ L, on.Shows m L

theorem GameNode.Labelled.later {w w' : Workspace} {n : GameNode} (h : n.Labelled w.current)
    (hl : w.Leads w') : n.Labelled w'.current := by
  cases n with
  | main p q => trivial
  | challenge p q on => exact ⟨h.1, h.2.imp fun L hon => hon.later hl⟩

/-- The node is over states of the automata. -/
structure GameNode.OnStates (n : GameNode) (a b : Automaton) (m : Manager) : Prop where
  left : n.left < a.size
  right : n.right < b.size
  labelled : n.Labelled m

theorem GameNode.OnStates.later {w w' : Workspace} {n : GameNode} {a b : Automaton}
    (h : n.OnStates a b w.current) (hl : w.Leads w') : n.OnStates a b w'.current :=
  ⟨h.left, h.right, h.labelled.later hl⟩

/-- The automata of a game and the states that it is limited to. -/
structure Arena where
  first : NFA Nat Nat
  second : NFA Nat Nat
  left : Set Nat
  right : Set Nat

namespace Arena

variable {w w' : Workspace} {m : Manager} {A : Arena} {p q : Nat} {n : GameNode}
  {l : List GameNode} {X Y : Set GameNode}

/-- Related states are in the arena, and the second accepts and moves as the first does. -/
structure Simulates (A : Arena) (R : Set (Nat × Nat)) : Prop where
  within : ∀ p q, (p, q) ∈ R → p ∈ A.left ∧ q ∈ A.right
  accept : ∀ p q, (p, q) ∈ R → p ∈ A.first.accept → q ∈ A.second.accept
  step : ∀ p q, (p, q) ∈ R → ∀ p' ∈ A.left, ∀ x : Letter, p' ∈ A.first.step p x.code →
    ∃ q' ∈ A.right, q' ∈ A.second.step q x.code ∧ (p', q') ∈ R

/-- The letters of the edge from `p` to `p'`, of which there are some. -/
def Labels (A : Arena) (m : Manager) (p p' : Nat) (on : SymbolSet) : Prop :=
  on.Shows m (p' ∈ A.first.step p ·) ∧ ∃ x : Letter, p' ∈ A.first.step p x.code

/-- A challenge at the main node of `p` and `q`. -/
def Poses (A : Arena) (m : Manager) (p q : Nat) (n : GameNode) : Prop :=
  ∃ p' ∈ A.left, ∃ on, n = .challenge p' q on ∧ A.Labels m p p' on

/-- A node over the states of the arena. -/
def Position (A : Arena) (m : Manager) : GameNode → Prop
  | .main p q => p ∈ A.left ∧ q ∈ A.right
  | .challenge p' q on => p' ∈ A.left ∧ q ∈ A.right ∧ ∃ p ∈ A.left, A.Labels m p p' on

theorem Labels.later {p' : Nat} {on : SymbolSet} (h : A.Labels w.current p p' on)
    (hl : w.Leads w') : A.Labels w'.current p p' on := ⟨h.1.later hl, h.2⟩

theorem Labels.unique {p' : Nat} {on on' : SymbolSet} (h : A.Labels m p p' on)
    (h' : A.Labels m p p' on') (hm : m.Canonical) : on = on' := h.1.unique h'.1 hm

theorem Labels.has_iff {p' : Nat} {on : SymbolSet} {x : Letter} (h : A.Labels m p p' on)
    (hm : m.Canonical) : on.Has m x ↔ p' ∈ A.first.step p x.code := h.1.has_iff hm

theorem Labels.not_isEmpty {p' : Nat} {on : SymbolSet} (h : A.Labels m p p' on)
    (hm : m.Canonical) : on.fn ≠ .zero := by
  obtain ⟨x, hx⟩ := h.2
  intro hzero
  exact (h.1.isEmpty_iff hm).1 (decide_eq_true hzero) x.code x.code_lt hx

theorem Labels.labelled {p' : Nat} {on : SymbolSet} (h : A.Labels m p p' on) (hm : m.Canonical) :
    (GameNode.challenge p' q on).Labelled m :=
  ⟨decide_eq_false (h.not_isEmpty hm), _, h.1⟩

/-- A challenge of the letters of an edge, which has some, names the edge. -/
theorem labels_of_has {p' : Nat} {on : SymbolSet} {x : Letter}
    (hn : (GameNode.challenge p' q on).Labelled m) (hm : m.Canonical)
    (hx : p' ∈ A.first.step p x.code) (hhas : ∀ y, on.Has m y ↔ p' ∈ A.first.step p y.code) :
    A.Labels m p p' on := by
  obtain ⟨-, L, hon⟩ := hn
  refine ⟨hon.congr fun c hc => ?_, x, hx⟩
  obtain ⟨y, rfl⟩ := Letter.exists_code hc
  rw [← hon.has_iff hm, hhas]

theorem Position.labelled (h : A.Position m n) (hm : m.Canonical) : n.Labelled m := by
  cases n with
  | main p q => trivial
  | challenge p' q on =>
    obtain ⟨-, -, p, -, hon⟩ := h
    exact hon.labelled hm

theorem Position.later (h : A.Position w.current n) (hl : w.Leads w') :
    A.Position w'.current n := by
  cases n with
  | main p q => exact h
  | challenge p' q on =>
    obtain ⟨hp', hq, p, hp, hon⟩ := h
    exact ⟨hp', hq, p, hp, hon.later hl⟩

theorem Position.left_mem (h : A.Position m n) : n.left ∈ A.left := by
  cases n with
  | main p q => exact h.1
  | challenge p' q on => exact h.1

theorem Position.right_mem (h : A.Position m n) : n.right ∈ A.right := by
  cases n with
  | main p q => exact h.2
  | challenge p' q on => exact h.2.1

theorem Poses.position (h : A.Poses m p q n) (hp : p ∈ A.left) (hq : q ∈ A.right) :
    A.Position m n := by
  obtain ⟨p', hp', on, rfl, hon⟩ := h
  exact ⟨hp', hq, p, hp, hon⟩

/-- The list has the challenge of each state that an edge leads to, and no other node. -/
structure Posed (A : Arena) (m : Manager) (p q : Nat) (l : List GameNode) : Prop where
  sound : ∀ n ∈ l, A.Poses m p q n
  complete : ∀ p' ∈ A.left, ∀ x : Letter, p' ∈ A.first.step p x.code →
    ∃ on, .challenge p' q on ∈ l ∧ A.Labels m p p' on

theorem Posed.later (h : A.Posed w.current p q l) (hl : w.Leads w') : A.Posed w'.current p q l where
  sound n hn := by
    obtain ⟨p', hp', on, rfl, hon⟩ := h.sound n hn
    exact ⟨p', hp', on, rfl, hon.later hl⟩
  complete p' hp' x hx := by
    obtain ⟨on, hmem, hon⟩ := h.complete p' hp' x hx
    exact ⟨on, hmem, hon.later hl⟩

/-- The answers to a challenge: the states that a letter of it leads to. -/
def Answers (A : Arena) (m : Manager) (p q : Nat) (on : SymbolSet) (l : List GameNode) : Prop :=
  ∀ n, n ∈ l ↔ ∃ q' ∈ A.right, (∃ x, on.Has m x ∧ q' ∈ A.second.step q x.code) ∧ n = .main p q'

/-- The list holds the successors of the node. -/
def Follows (A : Arena) (m : Manager) : GameNode → List GameNode → Prop
  | .main p q, l => A.Posed m p q l
  | .challenge p q on, l => A.Answers m p q on l

theorem Follows.later (h : A.Follows w.current n l) (hn : n.Labelled w.current) (hl : w.Leads w') :
    A.Follows w'.current n l := by
  cases n with
  | main p q => exact Posed.later h hl
  | challenge p' q on =>
    obtain ⟨-, L, hon⟩ := hn
    intro n
    simp only [hon.has_later hl]
    exact h n

/-- What a node needs to survive among others: each edge at a main node is posed by a challenge
about the letters of the edge, and each letter of a challenge is answered. -/
def Survives (A : Arena) (m : Manager) (X : Set GameNode) : GameNode → Prop
  | .main p q => ∀ p' ∈ A.left, ∀ x : Letter, p' ∈ A.first.step p x.code →
    ∃ on, .challenge p' q on ∈ X ∧ ∀ y, on.Has m y ↔ p' ∈ A.first.step p y.code
  | .challenge p q on => ∀ x, on.Has m x →
    ∃ q' ∈ A.right, q' ∈ A.second.step q x.code ∧ .main p q' ∈ X

theorem Survives.mono (h : A.Survives m X n) (hle : X ⊆ Y) : A.Survives m Y n := by
  cases n with
  | main p q =>
    intro p' hp' x hx
    obtain ⟨on, hon, hhas⟩ := h p' hp' x hx
    exact ⟨on, hle hon, hhas⟩
  | challenge p q on =>
    intro x hx
    obtain ⟨q', hq', hstep, hmem⟩ := h x hx
    exact ⟨q', hq', hstep, hle hmem⟩

/-- A main node survives if all its successors are there. -/
theorem Posed.survives_iff (h : A.Posed m p q l) (hm : m.Canonical)
    (hX : ∀ n ∈ X, n.Labelled m) : A.Survives m X (.main p q) ↔ ∀ n ∈ l, n ∈ X := by
  constructor
  · intro hall n hn
    obtain ⟨p', hp', on, rfl, hon⟩ := h.sound n hn
    obtain ⟨x, hx⟩ := hon.2
    obtain ⟨on', hmem, hhas⟩ := hall p' hp' x hx
    rwa [hon.unique (labels_of_has (hX _ hmem) hm hx hhas) hm]
  · intro hall p' hp' x hx
    obtain ⟨on, hmem, hon⟩ := h.complete p' hp' x hx
    exact ⟨on, hall _ hmem, fun y => hon.has_iff hm⟩

/-- A challenge survives if those of its successors that are there cover its letters. -/
theorem Answers.survives_iff {on : SymbolSet} (h : A.Answers m p q on l) :
    A.Survives m X (.challenge p q on) ↔
      ∀ x, on.Has m x → ∃ n ∈ l, n ∈ X ∧ n.right ∈ A.second.step q x.code := by
  refine forall₂_congr fun x hx => ?_
  constructor
  · rintro ⟨q', hq', hstep, hmem⟩
    exact ⟨_, (h _).2 ⟨q', hq', ⟨x, hx, hstep⟩, rfl⟩, hmem, hstep⟩
  · rintro ⟨n, hn, hmem, hstep⟩
    obtain ⟨q', hq', -, rfl⟩ := (h n).1 hn
    exact ⟨q', hq', hstep, hmem⟩

theorem survives_later (hX : ∀ n ∈ X, n.Labelled w.current) (hn : n.Labelled w.current)
    (hl : w.Leads w') : A.Survives w'.current X n ↔ A.Survives w.current X n := by
  cases n with
  | main p q =>
    refine forall₂_congr fun p' _ => forall₂_congr fun x _ => exists_congr fun on =>
      and_congr_right fun hmem => forall_congr' fun y => ?_
    obtain ⟨-, L, hon⟩ := hX _ hmem
    rw [hon.has_later hl]
  | challenge p q on =>
    obtain ⟨-, L, hon⟩ := hn
    exact forall_congr' fun x => imp_congr_left (hon.has_later hl)

/-- Every node of the set survives in it. -/
def Sustained (A : Arena) (m : Manager) (X : Set GameNode) : Prop := ∀ n ∈ X, A.Survives m X n

theorem sustained_later (hX : ∀ n ∈ X, n.Labelled w.current) (hl : w.Leads w') :
    A.Sustained w'.current X ↔ A.Sustained w.current X :=
  forall₂_congr fun n hn => survives_later hX (hX n hn) hl

/-- All nodes of the game: each pair of states, and the challenges there. -/
structure Board (A : Arena) (m : Manager) (ns : List GameNode) : Prop where
  sound : ∀ n ∈ ns, A.Position m n
  mains : ∀ p ∈ A.left, ∀ q ∈ A.right, .main p q ∈ ns
  challenges : ∀ p ∈ A.left, ∀ q ∈ A.right, ∀ p' ∈ A.left, ∀ x : Letter,
    p' ∈ A.first.step p x.code → ∃ on, .challenge p' q on ∈ ns ∧ A.Labels m p p' on

theorem Board.later {ns : List GameNode} (h : A.Board w.current ns) (hl : w.Leads w') :
    A.Board w'.current ns where
  sound n hn := (h.sound n hn).later hl
  mains := h.mains
  challenges p hp q hq p' hp' x hx := by
    obtain ⟨on, hmem, hon⟩ := h.challenges p hp q hq p' hp' x hx
    exact ⟨on, hmem, hon.later hl⟩

def Group (A : Arena) (m : Manager) (p q : Nat) (ns : List GameNode) : Prop :=
  ∃ l, ns = .main p q :: l ∧ A.Posed m p q l

structure Row (A : Arena) (m : Manager) (p : Nat) (groups : List (List GameNode)) : Prop where
  all : ∀ q ∈ A.right, ∃ ns ∈ groups, A.Group m p q ns
  only : ∀ ns ∈ groups, ∃ q ∈ A.right, A.Group m p q ns

theorem Group.later {ns : List GameNode} (h : A.Group w.current p q ns) (hl : w.Leads w') :
    A.Group w'.current p q ns := by
  obtain ⟨l, hns, hposed⟩ := h
  exact ⟨l, hns, hposed.later hl⟩

theorem Group.position {ns : List GameNode} (h : A.Group m p q ns) (hp : p ∈ A.left)
    (hq : q ∈ A.right) : ∀ n ∈ ns, A.Position m n := by
  obtain ⟨l, rfl, hposed⟩ := h
  intro n hn
  rcases List.mem_cons.1 hn with rfl | hn
  · exact ⟨hp, hq⟩
  · exact (hposed.sound n hn).position hp hq

theorem Row.later {groups : List (List GameNode)} (h : A.Row w.current p groups)
    (hl : w.Leads w') : A.Row w'.current p groups where
  all q hq := by
    obtain ⟨ns, hns, hgroup⟩ := h.all q hq
    exact ⟨ns, hns, hgroup.later hl⟩
  only ns hns := by
    obtain ⟨q, hq, hgroup⟩ := h.only ns hns
    exact ⟨q, hq, hgroup.later hl⟩

theorem position_of_rows {rows : List (List (List GameNode))}
    (honly : ∀ row ∈ rows, ∃ p ∈ A.left, A.Row m p row) :
    ∀ n ∈ rows.flatten.flatten, A.Position m n := by
  intro n hn
  obtain ⟨group, hgroup, hn⟩ := List.mem_flatten.1 hn
  obtain ⟨row, hrow, hgroup⟩ := List.mem_flatten.1 hgroup
  obtain ⟨p, hp, hpart⟩ := honly row hrow
  obtain ⟨q, hq, hgroup⟩ := hpart.only group hgroup
  exact hgroup.position hp hq n hn

/-- The rows of all states make the board, in whatever order the nodes are listed. -/
theorem board_of_rows {rows : List (List (List GameNode))} {ns : List GameNode}
    (hall : ∀ p ∈ A.left, ∃ row ∈ rows, A.Row m p row)
    (honly : ∀ row ∈ rows, ∃ p ∈ A.left, A.Row m p row)
    (hns : ∀ n, n ∈ ns ↔ n ∈ rows.flatten.flatten) : A.Board m ns := by
  have hgroup : ∀ p ∈ A.left, ∀ q ∈ A.right, ∃ l, A.Posed m p q l ∧
      ∀ n ∈ GameNode.main p q :: l, n ∈ ns := by
    intro p hp q hq
    obtain ⟨row, hrow, hpart⟩ := hall p hp
    obtain ⟨_, hgroup, l, rfl, hposed⟩ := hpart.all q hq
    refine ⟨l, hposed, fun n hn => (hns n).2 ?_⟩
    exact List.mem_flatten_of_mem (List.mem_flatten_of_mem hrow hgroup) hn
  constructor
  · exact fun n hn => position_of_rows honly n ((hns n).1 hn)
  · intro p hp q hq
    obtain ⟨l, -, hnodes⟩ := hgroup p hp q hq
    exact hnodes _ (.head _)
  · intro p hp q hq p' hp' x hx
    obtain ⟨l, hposed, hnodes⟩ := hgroup p hp q hq
    obtain ⟨on, hon, hlabels⟩ := hposed.complete p' hp' x hx
    exact ⟨on, hnodes _ (.tail _ hon), hlabels⟩

def Excluded (A : Arena) : GameNode → Prop
  | .main p q => p ∈ A.first.accept ∧ q ∉ A.second.accept
  | .challenge _ _ _ => False

variable {ns : List GameNode} {R : Set (Nat × Nat)}

/-- What sustains itself is a simulation: each letter of a challenge has its own answer. -/
theorem Board.simulates (h : A.Board m ns) (hX : X ⊆ {n | n ∈ ns ∧ ¬ A.Excluded n})
    (hsustained : A.Sustained m X) : A.Simulates {x | .main x.1 x.2 ∈ X} where
  within p q hpq := h.sound _ (hX hpq).1
  accept p q hpq hp := by
    by_contra hq
    exact (hX hpq).2 ⟨hp, hq⟩
  step p q hpq p' hp' x hx := by
    obtain ⟨on, hon, hhas⟩ := hsustained _ hpq p' hp' x hx
    exact (hsustained _ hon x ((hhas x).2 hx)).imp fun q' hq' => hq'

/-- The main nodes of related states, and the challenges there. -/
def related (A : Arena) (m : Manager) (R : Set (Nat × Nat)) : Set GameNode :=
  {n | ∃ p q, (p, q) ∈ R ∧ (n = .main p q ∨ A.Poses m p q n)}

theorem Board.related_subset (h : A.Board m ns) (hm : m.Canonical) (hR : A.Simulates R) :
    A.related m R ⊆ {n | n ∈ ns ∧ ¬ A.Excluded n} := by
  rintro n ⟨p, q, hpq, hn⟩
  obtain ⟨hp, hq⟩ := hR.within p q hpq
  rcases hn with rfl | ⟨p', hp', on, rfl, hon⟩
  · exact ⟨h.mains p hp q hq, fun hex => hex.2 (hR.accept p q hpq hex.1)⟩
  · obtain ⟨x, hx⟩ := hon.2
    obtain ⟨on', hmem, hon'⟩ := h.challenges p hp q hq p' hp' x hx
    obtain rfl := hon.unique hon' hm
    exact ⟨hmem, id⟩

theorem Board.sustained (h : A.Board m ns) (hm : m.Canonical) (hR : A.Simulates R) :
    A.Sustained m (A.related m R) := by
  rintro n ⟨p, q, hpq, hn⟩
  obtain ⟨hp, hq⟩ := hR.within p q hpq
  rcases hn with rfl | ⟨p', hp', on, rfl, hon⟩
  · intro p' hp' x hx
    obtain ⟨on, -, hon⟩ := h.challenges p hp q hq p' hp' x hx
    exact ⟨on, ⟨p, q, hpq, .inr ⟨p', hp', on, rfl, hon⟩⟩, fun y => hon.has_iff hm⟩
  · intro x hx
    obtain ⟨q', hq', hstep, hrel⟩ := hR.step p q hpq p' hp' x ((hon.has_iff hm).1 hx)
    exact ⟨q', hq', hstep, p', q', hrel, .inl rfl⟩

/-- The greatest set of nodes that sustains itself has the greatest simulation as its pairs. -/
theorem Board.isGreatest (h : A.Board m ns) (hm : m.Canonical)
    (hX : IsGreatest {X | X ⊆ {n | n ∈ ns ∧ ¬ A.Excluded n} ∧ A.Sustained m X} X) :
    IsGreatest {R | A.Simulates R} {x | .main x.1 x.2 ∈ X} := by
  obtain ⟨⟨hsub, hsustained⟩, hupper⟩ := hX
  refine ⟨h.simulates hsub hsustained, fun R hR x hx => ?_⟩
  exact hupper ⟨h.related_subset hm hR, h.sustained hm hR⟩ ⟨x.1, x.2, hx, .inl rfl⟩

end Arena

namespace GameNode

variable {m : Manager} {n n' : GameNode} {ns : List GameNode}

theorem order_eq_iff :
    order n n' = .eq ↔ n.left = n'.left ∧ n.right = n'.right ∧ n.label = n'.label := by
  unfold order
  simp only [compareLex_eq_eq, compareOn, Std.compare_eq_iff_eq]

/-- Nodes are told apart by their states and the function of their letters. -/
theorem eq_of_order (hn : n.Labelled m) (hn' : n'.Labelled m) (h : order n n' = .eq) : n = n' := by
  obtain ⟨hleft, hright, hlabel⟩ := order_eq_iff.1 h
  cases n with
  | main p q =>
    cases n' with
    | main p' q' =>
      obtain rfl : p = p' := hleft
      obtain rfl : q = q' := hright
      rfl
    | challenge p' q' on' =>
      exact absurd hlabel.symm (of_decide_eq_false hn'.1)
  | challenge p q on =>
    obtain ⟨hsome, L, hon⟩ := hn
    cases n' with
    | main p' q' => exact absurd hlabel (of_decide_eq_false hsome)
    | challenge p' q' on' =>
      obtain ⟨-, L', hon'⟩ := hn'
      obtain ⟨id, f⟩ := on
      obtain ⟨id', f'⟩ := on'
      obtain rfl : p = p' := hleft
      obtain rfl : q = q' := hright
      obtain rfl : f = f' := hlabel
      obtain rfl : id = id' := hon.home.trans hon'.home.symm
      rfl

theorem mem_eraseDupsBy {α : Type} {r : α → α → Bool} {xs : List α}
    (hr : ∀ x ∈ xs, ∀ y ∈ xs, r x y = true → x = y) (x : α) : x ∈ xs.eraseDupsBy r ↔ x ∈ xs := by
  induction hn : xs.length using Nat.strongRecOn generalizing xs with
  | _ k ih =>
    cases xs with
    | nil => rfl
    | cons y ys =>
      have hlt : (ys.filter fun b => decide (r b y = false)).length < k := by
        have := List.length_filter_le (fun b => decide (r b y = false)) ys
        simp only [List.length_cons] at hn
        omega
      have hrest := ih _ hlt (fun a ha b hb => hr a (by simp [(List.mem_filter.1 ha).1]) b
        (by simp [(List.mem_filter.1 hb).1])) rfl
      rw [List.eraseDupsBy_cons, List.mem_cons, List.mem_cons, hrest, List.mem_filter]
      constructor
      · rintro (rfl | ⟨hx, -⟩)
        · exact .inl rfl
        · exact .inr hx
      · rintro (rfl | hx)
        · exact .inl rfl
        · by_cases hxy : r x y = true
          · exact .inl (hr x (by simp [hx]) y (by simp) hxy)
          · exact .inr ⟨hx, by simpa using hxy⟩

theorem mem_distinct (hns : ∀ n ∈ ns, n.Labelled m) : n ∈ distinct ns ↔ n ∈ ns :=
  mem_eraseDupsBy (fun n hn n' hn' h => eq_of_order (hns n hn) (hns n' hn') (by simpa using h)) n

theorem contains_ofList_iff (hn : n.Labelled m) (hns : ∀ n ∈ ns, n.Labelled m) :
    (Std.TreeSet.ofList ns).contains n = true ↔ n ∈ ns := by
  let same : BEq GameNode := ⟨fun n n' => decide (order n n' = .eq)⟩
  have hlawful : @Std.LawfulBEqCmp GameNode same compare := ⟨decide_eq_true_iff.symm⟩
  rw [@Std.TreeSet.contains_ofList _ _ _ same hlawful, List.contains_eq_any_beq, List.any_eq_true]
  constructor
  · rintro ⟨n', hn', heq⟩
    have horder : order n n' = .eq := of_decide_eq_true heq
    rwa [eq_of_order hn (hns n' hn') horder]
  · intro hmem
    exact ⟨n, hmem, decide_eq_true (order_eq_iff.2 ⟨rfl, rfl, rfl⟩)⟩

end GameNode

namespace Game

variable {w w₀ w' : Workspace} {m : Manager} {G : Game} {A : Arena} {p q : Nat} {n : GameNode}
  {es : List (GameNode × List GameNode)}

/-- The game is played in the arena. -/
structure Plays (G : Game) (m : Manager) (A : Arena) : Prop where
  first : Automaton.Shows m G.first A.first
  second : Automaton.Shows m G.second A.second
  contained₁ : Contained A.first G.first.size
  contained₂ : Contained A.second G.second.size
  states₁ : G.states1.domain = G.first.stateBlock ∧ G.states1.Shows m (· ∈ A.left)
  states₂ : G.states2.domain = G.second.stateBlock ∧ G.states2.Shows m (· ∈ A.right)
  left : ∀ p ∈ A.left, p < G.first.size
  right : ∀ q ∈ A.right, q < G.second.size

theorem Plays.later (h : G.Plays w.current A) (hl : w.Leads w') : G.Plays w'.current A where
  first := h.first.later hl
  second := h.second.later hl
  contained₁ := h.contained₁
  contained₂ := h.contained₂
  states₁ := ⟨h.states₁.1, h.states₁.2.later hl⟩
  states₂ := ⟨h.states₂.1, h.states₂.2.later hl⟩
  left := h.left
  right := h.right

theorem Plays.onStates (h : G.Plays m A) (hn : A.Position m n) (hm : m.Canonical) :
    n.OnStates G.first G.second m :=
  ⟨h.left _ hn.left_mem, h.right _ hn.right_mem, hn.labelled hm⟩

/-- The node is over states of the automata, and its successors are listed. -/
structure Ready (G : Game) (m : Manager) (A : Arena) (e : GameNode × List GameNode) : Prop where
  states : e.1.OnStates G.first G.second m
  follows : A.Follows m e.1 e.2

theorem Ready.later {e : GameNode × List GameNode} (h : G.Ready w.current A e) (hl : w.Leads w') :
    G.Ready w'.current A e :=
  ⟨h.states.later hl, h.follows.later h.states.labelled hl⟩

/-- The successors of a node have letters where they need some. -/
theorem Ready.successor {e : GameNode × List GameNode} (h : G.Ready m A e) (hm : m.Canonical) :
    ∀ n ∈ e.2, n.Labelled m := by
  obtain ⟨n, l⟩ := e
  intro n' hn'
  have hfollows := h.follows
  cases n with
  | main p q =>
    obtain ⟨p', -, on, rfl, hon⟩ := hfollows.sound n' hn'
    exact hon.labelled hm
  | challenge p q on =>
    obtain ⟨q', -, -, rfl⟩ := (hfollows n').1 hn'
    trivial

theorem elements_yields {a : Automaton} {g : NFA Nat Nat} {s : ValueSet} {P : Nat → Prop}
    (h : Automaton.Shows w.current a g) (hs : s.domain = a.stateBlock ∧ s.Shows w.current P)
    (hw : w.current.WellFormed) (hP : ∀ p, P p → p < a.size) :
    Yields w s.elements fun vs _ => ∀ v, v ∈ vs ↔ P v := by
  have hk := h.width_le
  have hn := le_two_pow_bitsNeeded a.size
  have hlen : s.domain.len = bitsNeeded a.size := by rw [hs.1]; rfl
  have hbase : s.domain.base = 1 := by rw [hs.1]; rfl
  apply (hs.2.elements_yields hw (by omega) (by omega)).imp
  intro vs w' _ hvs v
  rw [hvs, hlen]
  constructor
  · exact fun hv => hv.2
  · intro hv
    have := hP v hv
    exact ⟨by omega, hv⟩

/-- The chosen states that a symbol leads to from a state. -/
def stepsWithin (a : Automaton) (p : Nat) (on : SymbolSet) (s : ValueSet) : BddM (List Nat) := do
  let source ← a.stateSet [p]
  let next ← (← a.step .forward source on).inter s
  next.elements

theorem challenges_eq (G : Game) (p q : Nat) : G.challenges p q = G.first.within (do
    (← stepsWithin G.first p G.first.alphabet G.states1).filterMapM fun p' => do
      let on ← G.first.edge p p'
      return if on.isEmpty then none else some (.challenge p' q on)) := by
  simp only [challenges, stepsWithin, bind_assoc]

theorem answers_eq (G : Game) (p q : Nat) (on : SymbolSet) :
    G.answers p q on = G.second.within (do
      return (← stepsWithin G.second q on G.states2).map (.main p)) := by
  simp only [answers, stepsWithin, bind_assoc]

theorem stepsWithin_yields {a : Automaton} {g : NFA Nat Nat} {s : ValueSet} {on : SymbolSet}
    {P L : Nat → Prop} (h : Automaton.Shows w.current a g) (hw : w.current.WellFormed)
    (hg : Contained g a.size) (hs : s.domain = a.stateBlock ∧ s.Shows w.current P)
    (hP : ∀ v, P v → v < a.size) (hp : p < a.size)
    (hon : w.current.Denotes on.fn fun t => L (Layout.alphabet.read t)) :
    Yields w (stepsWithin a p on s) fun vs _ =>
      ∀ v, v ∈ vs ↔ P v ∧ ∃ x : Letter, L x.code ∧ v ∈ g.step p x.code := by
  have hsingle : ∀ v ∈ [p], v < a.size := by simpa using hp
  apply Runs.bind (h.stateSet_yields hw hsingle)
  intro source w1 hl1 hsource
  have hmovable := ValueSet.movable_of_lt h.width_le hsource fun v hv =>
    Nat.lt_of_lt_of_le (hsingle v hv) (le_two_pow_bitsNeeded a.size)
  apply Runs.bind ((h.later hl1).step_yields hl1.after hg hmovable (hl1.denotes hon))
  intro reached w2 hl2 hreached
  have hl := hl1.trans hl2
  apply Runs.bind (ValueSet.inter_yields hreached.2 (hs.2.later hl)
    (hreached.1.trans hs.1.symm) hl2.after)
  intro next w3 hl3 hnext
  apply (elements_yields (h.later (hl.trans hl3)) ⟨hnext.1.trans hreached.1, hnext.2⟩ hl3.after
    fun v hv => hP v hv.2).imp
  intro vs w4 _ hvs v
  rw [hvs]
  constructor
  · rintro ⟨⟨r, hr, c, hc, hL, hstep⟩, hv⟩
    obtain rfl := List.mem_singleton.1 hr
    obtain ⟨x, rfl⟩ := Letter.exists_code hc
    exact ⟨hv, x, hL, hstep⟩
  · rintro ⟨hv, x, hL, hstep⟩
    exact ⟨⟨p, by simp, x.code, x.code_lt, hL, hstep⟩, hv⟩

theorem Plays.challenge_yields {p' : Nat} {x : Letter} (h : G.Plays w.current A)
    (hw : w.current.WellFormed) (hp : p < G.first.size) (hp' : p' ∈ A.left)
    (hx : p' ∈ A.first.step p x.code) : Yields w (do
      let on ← G.first.edge p p'
      return if on.isEmpty then none else some (GameNode.challenge p' q on)) fun o m =>
        ∃ on, A.Labels m p p' on ∧ o = some (.challenge p' q on) := by
  apply Runs.bind (h.first.edge_yields hw h.contained₁ hp (h.left p' hp'))
  intro on w1 hl1 hon
  have hlabels : A.Labels w1.current p p' on := ⟨hon, x, hx⟩
  have hsome : on.isEmpty = false := decide_eq_false (hlabels.not_isEmpty hl1.after.canonical)
  exact Runs.pure hl1.after ⟨on, hlabels, by rw [hsome]; rfl⟩

theorem Plays.challenges_yields (h : G.Plays w.current A) (hw : w.current.WellFormed)
    (hp : p < G.first.size) : Yields w (G.challenges p q) fun l m => A.Posed m p q l := by
  rw [challenges_eq]
  apply h.first.within_yields
  apply Runs.bind (stepsWithin_yields (L := fun _ => True) h.first hw h.contained₁ h.states₁ h.left
    hp (SymbolicNfa.universal_denotes hw.canonical _))
  intro vs w1 hl1 hvs
  simp only [true_and] at hvs
  have hchallenge : ∀ p' ∈ vs, ∀ w', w1.Leads w' → Yields w' (do
      let on ← G.first.edge p p'
      return if on.isEmpty then none else some (GameNode.challenge p' q on)) fun o m =>
        ∃ on, A.Labels m p p' on ∧ o = some (.challenge p' q on) := by
    intro p' hp' w' hl'
    obtain ⟨hleft, x, hx⟩ := (hvs p').1 hp'
    exact ((h.later hl1).later hl').challenge_yields hl'.after hp hleft hx
  rw [filterMapM_eq]
  apply Runs.bind (mapM_mem_yields hl1.after hchallenge ?_)
  · rintro os w2 hl2 ⟨hall, honly⟩
    refine Runs.pure hl2.after ⟨fun n hn => ?_, fun p' hp' x hx => ?_⟩
    · obtain ⟨p', hp', on, hon, heq⟩ := honly _ (List.reduceOption_mem_iff.1 hn)
      cases heq
      exact ⟨p', ((hvs p').1 hp').1, on, rfl, hon⟩
    · obtain ⟨o, ho, on, hon, rfl⟩ := hall p' ((hvs p').2 ⟨hp', x, hx⟩)
      exact ⟨on, List.reduceOption_mem_iff.2 ho, hon⟩
  · rintro p' o w' w'' hl ⟨on, hon, ho⟩
    exact ⟨on, hon.later hl, ho⟩

theorem Plays.answers_yields {on : SymbolSet} {L : Nat → Prop} (h : G.Plays w.current A)
    (hw : w.current.WellFormed) (hq : q < G.second.size) (hon : on.Shows w.current L) :
    Yields w (G.answers p q on) fun l m => A.Answers m p q on l := by
  rw [answers_eq]
  apply h.second.within_yields
  apply Runs.bind (stepsWithin_yields h.second hw h.contained₂ h.states₂ h.right hq
    hon.denotes)
  intro vs w1 hl1 hvs
  refine Runs.pure hl1.after fun n => ?_
  simp only [List.mem_map, hvs, (hon.later hl1).has_iff hl1.after.canonical]
  constructor
  · rintro ⟨q', ⟨hq', hx⟩, rfl⟩
    exact ⟨q', hq', hx, rfl⟩
  · rintro ⟨q', hq', hx, rfl⟩
    exact ⟨q', ⟨hq', hx⟩, rfl⟩

theorem Plays.successors_yields (h : G.Plays w.current A) (hw : w.current.WellFormed)
    (hn : n.OnStates G.first G.second w.current) :
    Yields w (G.successors n) fun l m => A.Follows m n l := by
  cases n with
  | main p q => exact h.challenges_yields hw hn.left
  | challenge p q on =>
    obtain ⟨-, L, hon⟩ := hn.labelled
    exact h.answers_yields hw hn.right hon

/-- The nodes of one state of the first automaton, grouped by those of the second. -/
theorem Plays.row_yields (h : G.Plays w.current A) (hw : w.current.WellFormed)
    (hp : p ∈ A.left) : Yields w (do
      (← G.states2.elements).mapM fun q => do return .main p q :: (← G.challenges p q))
      fun row m => A.Row m p row := by
  apply Runs.bind (elements_yields h.second h.states₂ hw h.right)
  intro qs w1 hl1 hqs
  have hgroup : ∀ q ∈ qs, ∀ w', w1.Leads w' → Yields w' (do
      return GameNode.main p q :: (← G.challenges p q)) fun ns m => A.Group m p q ns := by
    intro q _ w' hl'
    apply Runs.bind (((h.later hl1).later hl').challenges_yields hl'.after (h.left p hp))
    intro l w2 hl2 hl
    exact Runs.pure hl2.after ⟨l, rfl, hl⟩
  apply (mapM_mem_yields hl1.after hgroup fun q ns w' w'' hl hns => hns.later hl).imp
  intro row w2 _ hrow
  simp only [hqs] at hrow
  obtain ⟨hall, honly⟩ := hrow
  exact ⟨hall, honly⟩

theorem Plays.nodes_yields (h : G.Plays w.current A) (hw : w.current.WellFormed) :
    Yields w G.nodes fun ns m => A.Board m ns := by
  apply Runs.bind (elements_yields h.first h.states₁ hw h.left)
  intro ps w1 hl1 hps
  apply Runs.bind (mapM_mem_yields hl1.after
    (fun p hp w' hl' => ((h.later hl1).later hl').row_yields hl'.after ((hps p).1 hp))
    fun p row w' w'' hl hrow => hrow.later hl)
  intro rows w2 hl2 hrows
  simp only [hps] at hrows
  obtain ⟨hall, honly⟩ := hrows
  have hsound := Arena.position_of_rows honly
  exact Runs.pure hl2.after (Arena.board_of_rows hall honly fun n =>
    GameNode.mem_distinct fun n hn => (hsound n hn).labelled hl2.after.canonical)

theorem Plays.uncovered_yields {on : SymbolSet} {L : Nat → Prop} {answers : List GameNode}
    (h : G.Plays w.current A) (hw : w.current.WellFormed) (hq : q < G.second.size)
    (hon : on.Shows w.current L) (hanswers : ∀ n ∈ answers, n.right ∈ A.right) :
    Yields w (G.uncovered q on answers) fun rest m =>
      rest.Shows m fun c => L c ∧ ∀ n ∈ answers, n.right ∉ A.second.step q c := by
  refine foldlM_runs (b := on) (I := fun (before : List GameNode) rest m =>
    rest.Shows m fun c => L c ∧ ∀ n ∈ before, n.right ∉ A.second.step q c) hw
    ⟨hon.home, hon.denotes.congr fun t => by simp⟩ ?_
  rintro before n after rfl w' rest hl hrest
  have h' := h.later hl
  have hn := h'.right _ (hanswers n (by simp))
  apply Runs.bind (h'.second.within_yields (h'.second.edge_yields hl.after h'.contained₂ hq hn))
  intro covered w1 hl1 hcovered
  have hrest1 := hrest.later hl1
  apply Runs.within hrest1.home
  apply (SymbolSet.sdiff_yields hrest1 hcovered hl1.after).imp
  intro r w2 _ hr
  refine ⟨hr.home, hr.denotes.congr fun t => ?_⟩
  rw [List.forall_mem_append, List.forall_mem_singleton, and_assoc]

theorem Plays.survives_yields {l alive : List GameNode} (h : G.Plays w.current A)
    (hw : w.current.WellFormed) (hready : G.Ready w.current A (n, l))
    (halive : ∀ n ∈ alive, n.Labelled w.current) :
    Yields w (G.survives (Std.TreeSet.ofList alive) l n) fun b _ =>
      b = true ↔ A.Survives w.current {n | n ∈ alive} n := by
  have hcontains : ∀ n ∈ l, (Std.TreeSet.ofList alive).contains n = true ↔ n ∈ alive :=
    fun n hn => GameNode.contains_ofList_iff (hready.successor hw.canonical n hn) halive
  cases n with
  | main p q =>
    have hposed : A.Posed w.current p q l := hready.follows
    refine Runs.pure hw ?_
    rw [List.all_eq_true]
    exact (forall₂_congr hcontains).trans (hposed.survives_iff hw.canonical halive).symm
  | challenge p q on =>
    have hanswers : A.Answers w.current p q on l := hready.follows
    obtain ⟨-, L, hon⟩ := hready.states.labelled
    have hright : ∀ n ∈ l.filter (Std.TreeSet.ofList alive).contains, n.right ∈ A.right := by
      intro n hn
      obtain ⟨q', hq', -, rfl⟩ := (hanswers n).1 (List.mem_filter.1 hn).1
      exact hq'
    apply Runs.bind (h.uncovered_yields hw hready.states.right hon hright)
    intro rest w1 hl1 hrest
    refine Runs.pure hl1.after ?_
    rw [hanswers.survives_iff, hrest.isEmpty_iff hl1.after.canonical]
    constructor
    · intro hnone x hx
      have hnot := hnone x.code x.code_lt
      rw [hon.has_iff hw.canonical] at hx
      push Not at hnot
      obtain ⟨n, hn, hstep⟩ := hnot hx
      obtain ⟨hmem, hc⟩ := List.mem_filter.1 hn
      exact ⟨n, hmem, (hcontains n hmem).1 hc, hstep⟩
    · rintro hall c hc ⟨hL, hnone⟩
      obtain ⟨x, rfl⟩ := Letter.exists_code hc
      obtain ⟨n, hmem, hn, hstep⟩ := hall x ((hon.has_iff hw.canonical).2 hL)
      exact hnone n (List.mem_filter.2 ⟨hmem, (hcontains n hmem).2 hn⟩) hstep

/-- A round keeps the entries whose nodes survive; the last round keeps all. -/
theorem Plays.fixFrom_yields {fuel : Nat} (h : G.Plays w.current A) (hl : w₀.Leads w)
    (hes : ∀ e ∈ es, G.Ready w₀.current A e) (hfuel : es.length < fuel) :
    Yields w (G.fixFrom fuel es) fun rs _ =>
      IsGreatest {X | X ⊆ {n | n ∈ es.map (·.1)} ∧ A.Sustained w₀.current X}
        {n | n ∈ rs.map (·.1)} := by
  classical
  induction fuel generalizing w es with
  | zero => omega
  | succ fuel ih =>
    have hlabelled : ∀ n ∈ es.map (·.1), n.Labelled w₀.current := by
      intro n hn
      obtain ⟨e, he, rfl⟩ := List.mem_map.1 hn
      exact (hes e he).states.labelled
    have htest : ∀ e ∈ es, ∀ w', w.Leads w' →
        Yields w' (G.survives (Std.TreeSet.ofList (es.map (·.1))) e.2 e.1) fun b _ =>
          b = true ↔ A.Survives w₀.current {n | n ∈ es.map (·.1)} e.1 := by
      intro e he w' hl'
      have hlater := hl.trans hl'
      apply ((h.later hl').survives_yields hlater.after ((hes e he).later hlater)
        fun n hn => (hlabelled n hn).later hlater).imp
      intro b w'' _ hb
      exact hb.trans (Arena.survives_later hlabelled (hes e he).states.labelled hlater)
    apply Runs.bind (filterM_yields hl.after htest)
    rintro next w1 hl1 rfl
    split_ifs with hlength
    · have hall := List.length_filter_eq_length_iff.1 hlength
      refine Runs.pure hl1.after ⟨⟨subset_rfl, fun n hn => ?_⟩, fun X hX => hX.1⟩
      obtain ⟨e, he, rfl⟩ := List.mem_map.1 hn
      exact of_decide_eq_true (hall e he)
    · have hle := List.length_filter_le
        (fun e => decide (A.Survives w₀.current {n | n ∈ es.map (·.1)} e.1)) es
      apply (ih (h.later hl1) (hl.trans hl1) (fun e he => hes e (List.mem_filter.1 he).1)
        (by omega)).imp
      rintro rs w2 _ ⟨⟨hsub, hsustained⟩, hupper⟩
      refine ⟨⟨fun n hn => ?_, hsustained⟩, fun X hX => hupper ⟨fun n hn => ?_, hX.2⟩⟩
      · obtain ⟨e, he, rfl⟩ := List.mem_map.1 (hsub hn)
        exact List.mem_map_of_mem (List.mem_filter.1 he).1
      · -- what sustains itself survives the round
        obtain ⟨e, he, rfl⟩ := List.mem_map.1 (hX.1 hn)
        exact List.mem_map_of_mem
          (List.mem_filter.2 ⟨he, decide_eq_true ((hX.2 _ hn).mono hX.1)⟩)

theorem Plays.isBad_yields {bad₁ bad₂ : ValueSet} (h : G.Plays w.current A)
    (hw : w.current.WellFormed)
    (hbad₁ : bad₁.domain = G.first.stateBlock ∧ bad₁.Shows w.current (· ∈ A.first.accept))
    (hbad₂ : bad₂.domain = G.second.stateBlock ∧
      bad₂.Shows w.current fun q => q < G.second.size ∧ q ∉ A.second.accept)
    (hn : A.Position w.current n) :
    Yields w (isBad bad₁ bad₂ n) fun b _ => b = true ↔ A.Excluded n := by
  cases n with
  | challenge p q on => exact Runs.pure hw (by simp [Arena.Excluded])
  | main p q =>
    have hk₁ := h.first.width_le
    have hk₂ := h.second.width_le
    have hn₁ := le_two_pow_bitsNeeded G.first.size
    have hn₂ := le_two_pow_bitsNeeded G.second.size
    have hp := h.left p hn.1
    have hq := h.right q hn.2
    have hlen₁ : bad₁.domain.len = bitsNeeded G.first.size := by rw [hbad₁.1]; rfl
    have hlen₂ : bad₂.domain.len = bitsNeeded G.second.size := by rw [hbad₂.1]; rfl
    have hbase₁ : bad₁.domain.base = 1 := by rw [hbad₁.1]; rfl
    have hbase₂ : bad₂.domain.base = 1 := by rw [hbad₂.1]; rfl
    apply Runs.bind (hbad₁.2.holds_yields hw (by omega) (by omega) p)
    intro b w1 hl1 hb
    rw [hlen₁] at hb
    cases b with
    | false =>
      refine Runs.pure hl1.after ?_
      have hnot : p ∉ A.first.accept := fun hacc => Bool.false_ne_true (hb.2 ⟨by omega, hacc⟩)
      simp [Arena.Excluded, hnot]
    | true =>
      apply ((hbad₂.2.later hl1).holds_yields hl1.after (by omega) (by omega) q).imp
      intro b w2 _ hb'
      rw [hlen₂] at hb'
      have hacc := (hb.1 rfl).2
      rw [hb']
      change _ ↔ p ∈ A.first.accept ∧ q ∉ A.second.accept
      constructor
      · exact fun hq' => ⟨hacc, hq'.2.2⟩
      · exact fun hq' => ⟨by omega, hq, hq'.2⟩

theorem Plays.entries_yields {initial : List GameNode} (h : G.Plays w.current A)
    (hw : w.current.WellFormed)
    (hinitial : ∀ n ∈ initial, n.OnStates G.first G.second w.current) :
    Yields w ((GameNode.distinct initial).mapM fun n => do return (n, ← G.successors n))
      fun es m => (∀ n, n ∈ es.map (·.1) ↔ n ∈ initial) ∧ ∀ e ∈ es, G.Ready m A e := by
  have hdistinct : ∀ n, n ∈ GameNode.distinct initial ↔ n ∈ initial := fun n =>
    GameNode.mem_distinct fun n hn => (hinitial n hn).labelled
  have hmake : ∀ n ∈ GameNode.distinct initial, ∀ w', w.Leads w' →
      Yields w' (do return (n, ← G.successors n)) fun e m => e.1 = n ∧ G.Ready m A e := by
    intro n hn w' hl'
    have hstates := (hinitial n ((hdistinct n).1 hn)).later hl'
    apply Runs.bind ((h.later hl').successors_yields hl'.after hstates)
    intro l w1 hl1 hl
    exact Runs.pure hl1.after ⟨rfl, hstates.later hl1, hl⟩
  apply (mapM_mem_yields hw hmake fun n e w' w'' hl he => ⟨he.1, he.2.later hl⟩).imp
  rintro es w1 hl1 ⟨hall, honly⟩
  constructor
  · intro n
    rw [List.mem_map, ← hdistinct]
    constructor
    · rintro ⟨e, he, rfl⟩
      obtain ⟨n, hn, rfl, -⟩ := honly e he
      exact hn
    · intro hn
      obtain ⟨e, he, heq, -⟩ := hall n hn
      exact ⟨e, he, heq⟩
  · intro e he
    obtain ⟨n, -, -, hready⟩ := honly e he
    exact hready

/-- The nodes that remain are the greatest set of the given ones that sustains itself. -/
theorem Plays.fixpoint_yields {initial : List GameNode} (h : G.Plays w.current A)
    (hl : w₀.Leads w) (hinitial : ∀ n ∈ initial, n.OnStates G.first G.second w₀.current) :
    Yields w (G.fixpoint initial) fun rs _ =>
      IsGreatest {X | X ⊆ {n | n ∈ initial} ∧ A.Sustained w₀.current X} {n | n ∈ rs} := by
  apply Runs.bind (h.entries_yields hl.after fun n hn => (hinitial n hn).later hl)
  rintro es w1 hl1 ⟨hnodes, hready⟩
  apply Runs.bind ((h.later hl1).fixFrom_yields (.refl hl1.after) hready (Nat.lt_succ_self _))
  intro rs w2 hl2 hrs
  refine Runs.pure hl2.after ?_
  simp only [hnodes] at hrs
  refine (congrArg (IsGreatest · _) (Set.ext fun X => and_congr_right fun hX => ?_)).mpr hrs
  have hlabelled : ∀ n ∈ X, n.Labelled w₀.current := fun n hn => (hinitial n (hX hn)).labelled
  exact (Arena.sustained_later hlabelled (hl.trans hl1)).symm

/-- The game is solved by the greatest simulation of its arena. -/
theorem Plays.maximal_yields {bad₁ bad₂ : ValueSet} (h : G.Plays w.current A)
    (hw : w.current.WellFormed)
    (hbad₁ : bad₁.domain = G.first.stateBlock ∧ bad₁.Shows w.current (· ∈ A.first.accept))
    (hbad₂ : bad₂.domain = G.second.stateBlock ∧
      bad₂.Shows w.current fun q => q < G.second.size ∧ q ∉ A.second.accept) :
    Yields w (G.maximal bad₁ bad₂) fun pairs _ =>
      IsGreatest {R | A.Simulates R} {x | x ∈ pairs} := by
  classical
  apply Runs.bind (h.nodes_yields hw)
  intro ns w1 hl1 hns
  have h1 := h.later hl1
  have htest : ∀ n ∈ ns, ∀ w', w1.Leads w' →
      Yields w' (do return !(← isBad bad₁ bad₂ n)) fun b _ => b = true ↔ ¬ A.Excluded n := by
    intro n hn w' hl'
    have hl := hl1.trans hl'
    apply Runs.bind ((h.later hl).isBad_yields hl'.after ⟨hbad₁.1, hbad₁.2.later hl⟩
      ⟨hbad₂.1, hbad₂.2.later hl⟩ ((hns.sound n hn).later hl'))
    intro b w2 hl2 hb
    refine Runs.pure hl2.after ?_
    rw [← hb, Bool.not_eq_true, Bool.not_eq_true']
  apply Runs.bind (filterM_yields hl1.after htest)
  rintro initial w2 hl2 rfl
  have h2 := h1.later hl2
  have hns2 := hns.later hl2
  apply Runs.bind (h2.fixpoint_yields (.refl hl2.after) fun n hn =>
    h2.onStates (hns2.sound n (List.mem_filter.1 hn).1) hl2.after.canonical)
  intro rs w3 hl3 hrs
  simp only [List.mem_filter, decide_eq_true_iff] at hrs
  refine Runs.pure hl3.after ?_
  refine (congrArg (IsGreatest _) (Set.ext fun x => ?_)).mpr
    (hns2.isGreatest hl2.after.canonical hrs)
  obtain ⟨p, q⟩ := x
  rw [Set.mem_ofPred_eq, mem_sortByKey, mem_sortByKey, List.mem_filterMap]
  constructor
  · rintro ⟨n, hn, hsome⟩
    cases n with
    | main p' q' =>
      cases hsome
      exact hn
    | challenge p' q' on => cases hsome
  · exact fun hn => ⟨_, hn, rfl⟩

end Game

namespace Automaton

variable {w : Workspace} {m : Manager} {a b : Automaton} {g g₁ g₂ : NFA Nat Nat}
  {dir : Direction} {s s₁ s₂ : ValueSet} {S S₁ S₂ : Set Nat} {R : Set (Nat × Nat)} {p q : Nat}

def Moves (a : Automaton) (m : Manager) : Direction → Nat → Letter → Nat → Prop
  | .forward, p, x, q => a.HasEdge m p x q
  | .backward, p, x, q => a.HasEdge m q x p

/-- The set stands for these states of the automaton, over any domain that can be narrowed to that
of the states: no more than a word of bits is dropped at once. -/
structure Selects (a : Automaton) (m : Manager) (s : ValueSet) (S : Set Nat) : Prop where
  shows : s.Shows m (· ∈ S)
  states : ∀ p ∈ S, p < a.size
  carried : ∀ p ∈ S, p < 2 ^ s.domain.len
  len : s.domain.len ≤ bitsNeeded a.size + 64
  ends : s.domain.base + s.domain.len ≤ 2 ^ 31

/-- A simulation in one direction, between the states of two sets. Where a walk against the
direction begins at the first state it also does at the second, and each letter on an edge of the
first is answered by one edge of the second. -/
structure IsSimulation (dir : Direction) (a b : Automaton) (m : Manager) (S₁ S₂ : Set Nat)
    (R : Set (Nat × Nat)) : Prop where
  within : ∀ p q, (p, q) ∈ R → p ∈ S₁ ∧ q ∈ S₂
  begins : ∀ p q, (p, q) ∈ R → a.Begins m dir.flip p → b.Begins m dir.flip q
  moves : ∀ p q, (p, q) ∈ R → ∀ p' ∈ S₁, ∀ x, a.Moves m dir p x p' →
    ∃ q' ∈ S₂, b.Moves m dir q x q' ∧ (p', q') ∈ R

def view (dir : Direction) (a : Automaton) : Automaton :=
  if dir = .forward then a else .reversed a

def viewed (dir : Direction) (g : NFA Nat Nat) : NFA Nat Nat :=
  if dir = .forward then g else g.reverse

theorem Shows.view (h : Shows m a g) : Shows m (view dir a) (viewed dir g) := by
  cases dir with
  | forward => exact h
  | backward => exact .reversed h

theorem size_view : (view dir a).size = a.size := by cases dir <;> rfl

theorem contained_viewed {n : Nat} (h : Contained g n) : Contained (viewed dir g) n := by
  cases dir with
  | forward => exact h
  | backward => exact h.reverse

theorem accept_viewed : (viewed dir g).accept = endsOf g dir.flip := by cases dir <;> rfl

theorem Shows.moves_iff {x : Letter} (h : Shows m a g) (hm : m.Canonical)
    (hg : Contained g a.size) : a.Moves m dir p x q ↔ q ∈ (viewed dir g).step p x.code := by
  cases dir with
  | forward => exact h.hasEdge_iff hm hg
  | backward => exact h.hasEdge_iff hm hg

theorem isSimulation_iff (ha : Shows m a g₁) (hb : Shows m b g₂) (hm : m.Canonical)
    (hg₁ : Contained g₁ a.size) (hg₂ : Contained g₂ b.size) :
    IsSimulation dir a b m S₁ S₂ R ↔
      Arena.Simulates ⟨viewed dir g₁, viewed dir g₂, S₁, S₂⟩ R := by
  have hbegins₁ : ∀ p, a.Begins m dir.flip p ↔ p ∈ (viewed dir g₁).accept := fun p => by
    rw [accept_viewed, ha.begins_iff hm hg₁]
  have hbegins₂ : ∀ q, b.Begins m dir.flip q ↔ q ∈ (viewed dir g₂).accept := fun q => by
    rw [accept_viewed, hb.begins_iff hm hg₂]
  constructor
  · intro h
    refine ⟨h.within, fun p q hpq hp => ?_, fun p q hpq p' hp' x hx => ?_⟩
    · exact (hbegins₂ q).1 (h.begins p q hpq ((hbegins₁ p).2 hp))
    · obtain ⟨q', hq', hmove, hrel⟩ := h.moves p q hpq p' hp' x ((ha.moves_iff hm hg₁).2 hx)
      exact ⟨q', hq', (hb.moves_iff hm hg₂).1 hmove, hrel⟩
  · intro h
    refine ⟨h.within, fun p q hpq hp => ?_, fun p q hpq p' hp' x hx => ?_⟩
    · exact (hbegins₂ q).2 (h.accept p q hpq ((hbegins₁ p).1 hp))
    · obtain ⟨q', hq', hstep, hrel⟩ := h.step p q hpq p' hp' x ((ha.moves_iff hm hg₁).1 hx)
      exact ⟨q', hq', (hb.moves_iff hm hg₂).2 hstep, hrel⟩

theorem Selects.movable (h : a.Selects m s S) (ha : Shows m a g) :
    s.Movable m (bitsNeeded a.size) (· ∈ S) := by
  have hk := ha.width_le
  have hn := le_two_pow_bitsNeeded a.size
  have hend := Layout.edgeEnd_le
  refine ⟨h.shows, fun e hlen hbase => ?_⟩
  constructor
  · exact h.ends
  · omega
  · rw [hlen]
    exact h.len
  · omega
  · intro p hp
    have := h.states p hp
    exact ⟨h.carried p hp, by rw [hlen]; omega⟩

theorem Selects.later {w' : Workspace} (h : a.Selects w.current s S) (hl : w.Leads w') :
    a.Selects w'.current s S := ⟨h.shows.later hl, h.states, h.carried, h.len, h.ends⟩

theorem stateBlock_view : (view dir a).stateBlock = a.stateBlock := by
  rw [stateBlock, size_view, stateBlock]

/-- The game is set up on the views and the sets moved onto their states. -/
theorem newGame_yields (dir : Direction) (hw : w.current.WellFormed) (ha : Shows w.current a g₁)
    (hb : Shows w.current b g₂) (hg₁ : Contained g₁ a.size) (hg₂ : Contained g₂ b.size)
    (hs₁ : a.Selects w.current s₁ S₁) (hs₂ : b.Selects w.current s₂ S₂) :
    Yields w (Game.new (view dir a) (view dir b) s₁ s₂) fun G m =>
      G.first = view dir a ∧ G.second = view dir b ∧
        G.Plays m ⟨viewed dir g₁, viewed dir g₂, S₁, S₂⟩ := by
  apply Runs.bind (ha.view.within_yields (ha.view.states_yields hw))
  intro t₁ w1 hl1 ht₁
  rw [ht₁.1, stateBlock_view]
  apply Runs.bind (((hs₁.later hl1).movable (ha.later hl1)).moved_yields hl1.after)
  intro r₁ w2 hl2 hr₁
  have hb2 : Shows w2.current (view dir b) (viewed dir g₂) := (hb.later (hl1.trans hl2)).view
  apply Runs.bind (hb2.within_yields (hb2.states_yields hl2.after))
  intro t₂ w3 hl3 ht₂
  rw [ht₂.1, stateBlock_view]
  have hl3' := (hl1.trans hl2).trans hl3
  apply Runs.bind (((hs₂.later hl3').movable (hb.later hl3')).moved_yields hl3.after)
  intro r₂ w4 hl4 hr₂
  have hl4' := hl3'.trans hl4
  refine Runs.pure hl4.after ⟨rfl, rfl, ?_⟩
  constructor
  · exact (ha.later hl4').view
  · exact (hb.later hl4').view
  · rw [size_view]
    exact contained_viewed hg₁
  · rw [size_view]
    exact contained_viewed hg₂
  · exact ⟨hr₁.1.trans stateBlock_view.symm, hr₁.2.later (hl3.trans hl4)⟩
  · exact ⟨hr₂.1.trans stateBlock_view.symm, hr₂.2⟩
  · rw [size_view]
    exact hs₁.states
  · rw [size_view]
    exact hs₂.states

theorem simulationWithin_yields (hw : w.current.WellFormed) (ha : Shows w.current a g₁)
    (hb : Shows w.current b g₂) (hg₁ : Contained g₁ a.size) (hg₂ : Contained g₂ b.size)
    (hs₁ : a.Selects w.current s₁ S₁) (hs₂ : b.Selects w.current s₂ S₂) :
    Yields w (simulationWithin dir a b s₁ s₂) fun pairs _ =>
      IsGreatest {R | Arena.Simulates ⟨viewed dir g₁, viewed dir g₂, S₁, S₂⟩ R}
        {x | x ∈ pairs} := by
  apply Runs.bind (newGame_yields dir hw ha hb hg₁ hg₂ hs₁ hs₂)
  rintro G w1 hl1 ⟨hfirst, hsecond, hplays⟩
  have hother : Yields w1 (b.within do (← b.states).sdiff (← b.ends dir.flip)) fun r m =>
      r.domain = b.stateBlock ∧ r.Shows m fun q => q < b.size ∧ q ∉ endsOf g₂ dir.flip := by
    have hb1 := hb.later hl1
    apply hb1.within_yields
    apply Runs.bind (hb1.states_yields hl1.after)
    intro s w2 hl2 hs
    apply Runs.bind ((hb1.later hl2).ends_yields hl2.after hg₂)
    intro t w3 hl3 ht
    apply (ValueSet.sdiff_yields (hs.2.later hl3) ht.2 (hs.1.trans ht.1.symm) hl3.after).imp
    exact fun r w4 _ hr => ⟨hr.1.trans hs.1, hr.2⟩
  apply Runs.bind hother
  intro other w2 hl2 hbad₂
  have ha2 := ha.later (hl1.trans hl2)
  apply Runs.bind (ha2.within_yields (ha2.ends_yields hl2.after hg₁))
  intro bad w3 hl3 hbad₁
  apply (hplays.later (hl2.trans hl3)).maximal_yields hl3.after
  · rw [hfirst, stateBlock_view]
    change _ ∧ bad.Shows _ (· ∈ (viewed dir g₁).accept)
    rwa [accept_viewed]
  · rw [hsecond, stateBlock_view, size_view]
    change _ ∧ other.Shows _ fun q => _ ∧ q ∉ (viewed dir g₂).accept
    rw [accept_viewed]
    exact ⟨hbad₂.1, hbad₂.2.later hl3⟩

/-- A set over the domain of the states selects its numbers if they are states. -/
theorem Shows.selects_block (h : Shows m a g)
    (hs : s.domain = a.stateBlock ∧ s.Shows m (· ∈ S)) (hS : ∀ p ∈ S, p < a.size) :
    a.Selects m s S := by
  have hn := le_two_pow_bitsNeeded a.size
  refine ⟨hs.2, hS, fun p hp => ?_, ?_, ?_⟩
  · rw [hs.1]
    exact Nat.lt_of_lt_of_le (hS p hp) hn
  · rw [hs.1]
    exact Nat.le_add_right _ 64
  · rw [hs.1]
    exact SymbolicNfa.source_end h.width_le

theorem Shows.selects_states (h : Shows m a g)
    (hs : s.domain = a.stateBlock ∧ s.Shows m (· < a.size)) :
    a.Selects m s {p | p < a.size} :=
  h.selects_block hs fun _ hp => hp

theorem states_selects {a : SymbolicNfa} {g : NFA Nat Nat} (h : a.Shows m g) :
    (symbolic a).Selects m a.states {p | p < a.stateCount} :=
  (Shows.symbolic h).selects_states h.states

theorem isSimulation_self : IsSimulation dir a a m S S {x | x.1 = x.2 ∧ x.1 ∈ S} where
  within p q hpq := by
    obtain rfl : p = q := hpq.1
    exact ⟨hpq.2, hpq.2⟩
  begins p q hpq hp := by
    obtain rfl : p = q := hpq.1
    exact hp
  moves p q hpq p' hp' x hmove := by
    obtain rfl : p = q := hpq.1
    exact ⟨p', hp', hmove, rfl, hp'⟩

/-- The pairs returned are the greatest simulation. The answers to a challenge may share its letters
among them; that the relation answers each letter of an edge by one edge is no restriction. -/
theorem simulationWithin_of_wellFormed (hw : w.current.WellFormed) (ha : a.WellFormed w.current)
    (hb : b.WellFormed w.current) (hs₁ : a.Selects w.current s₁ S₁)
    (hs₂ : b.Selects w.current s₂ S₂) :
    ∃ pairs w', simulationWithin dir a b s₁ s₂ w = .ok pairs w' ∧ w.Leads w' ∧
      IsGreatest {R | IsSimulation dir a b w.current S₁ S₂ R} {x | x ∈ pairs} := by
  obtain ⟨g₁, hshows₁, hg₁⟩ := ha.exists_shows
  obtain ⟨g₂, hshows₂, hg₂⟩ := hb.exists_shows
  simp only [isSimulation_iff hshows₁ hshows₂ hw.canonical hg₁ hg₂]
  exact yields_iff.1 (simulationWithin_yields hw hshows₁ hshows₂ hg₁ hg₂ hs₁ hs₂)

/-- Of the states of the automaton of all one-letter words each simulates itself, and the starting
one does not simulate the accepting one. -/
theorem simulationWithin_of_wellFormed_ofSymbols : ∃ m a w pairs w', Manager.new 0 1 1 = .ok m ∧
    SymbolicNfa.ofSymbols (.universal 0) ⟨m, []⟩ = .ok a w ∧
    simulationWithin .forward (.symbolic a) (.symbolic a) a.states a.states w = .ok pairs w' ∧
    (0, 0) ∈ pairs ∧ (1, 1) ∈ pairs ∧ (1, 0) ∉ pairs := by
  obtain ⟨m, hm⟩ : ∃ m, Manager.new 0 1 1 = .ok m := ⟨_, rfl⟩
  obtain ⟨a, w, ha, hl, hcount, hshows, hcontained, hwell⟩ := SymbolicNfa.ofSymbols_wellFormed hm
  have hc := hl.after.canonical
  have hselects := states_selects hshows
  have hfound : ∃ pairs w',
      simulationWithin .forward (symbolic a) (symbolic a) a.states a.states w = .ok pairs w' ∧
      w.Leads w' ∧ IsGreatest {R | IsSimulation .forward (symbolic a) (symbolic a)
        w.current {p | p < a.stateCount} {p | p < a.stateCount} R} {x | x ∈ pairs} :=
    simulationWithin_of_wellFormed hl.after hwell hwell hselects hselects
  obtain ⟨pairs, w', hrun, -, hsim, hupper⟩ := hfound
  have hle := hupper isSimulation_self
  refine ⟨m, a, w, pairs, w', hm, ha, hrun, hle ⟨rfl, ?_⟩, hle ⟨rfl, ?_⟩, fun hmem => ?_⟩
  · simp [hcount]
  · simp [hcount]
  · have haccept := hsim.begins 1 0 hmem
    change (symbolic a).Begins _ .backward 1 → (symbolic a).Begins _ .backward 0 at haccept
    rw [(Shows.symbolic hshows).begins_iff hc hcontained,
      (Shows.symbolic hshows).begins_iff hc hcontained] at haccept
    have h0 := haccept (.inr ⟨rfl, Nat.le_refl 1, Nat.lt_succ_self 1⟩)
    simp [endsOf, SymbolicNfa.oneLetter, connect, enlarge, bare] at h0

end Automaton

end SymbolicAutomata
