import SymbolicAutomata.Proofs.Questions
/-!
# Agreement of the encodings

Two automata that are made by the same calls, in whatever encodings, hold the same content. They
give the same answers, take the same further calls, and each of them is what the other is converted
to.
-/
namespace SymbolicAutomata

open Manager Bdd Layout

namespace Encoding

variable {w w' : Workspace} {m : Manager} {e e' : Encoding} {X : Content} {a : Automaton}
  {s t : ValueSet} {on : SymbolSet} {S T : Set Nat} {L : Nat → Prop} {p q : Nat}

theorem Holds.addState_yields (h : e.Holds w.current X a) (accepting starting : Bool)
    (hw : w.current.WellFormed) (hfew : X.count + 1 < 2 ^ 32) :
    Yields w (a.addState accepting starting) fun r m => r.1 = X.count ∧
      e.Holds m ⟨X.count + 1, enlarge X.nfa X.count (X.count + 1) accepting starting⟩ r.2 := by
  cases h with
  | symbolic shows count contained flag =>
    rw [← count] at hfew contained ⊢
    apply Runs.bind (SymbolicNfa.addState_yields hw shows contained hfew)
    rintro ⟨q, b⟩ w1 hl1 ⟨hq, hcount, hflag, hb⟩
    refine Runs.pure hl1.after ⟨hq, .symbolic hb hcount ?_ hflag⟩
    exact contained.enlarge (Nat.le_succ _)
  | matrix displays count ascending =>
    rw [← count] at hfew ⊢
    refine Runs.pure hw ⟨rfl, .matrix ?_ MatrixNfa.stateCount_addState ?_⟩
    · exact displays.addState hw.canonical accepting starting hfew
    · exact displays.ascending_addState ascending accepting starting

theorem Holds.addEdge_yields (h : e.Holds w.current X a) (hw : w.current.WellFormed)
    (hp : p < X.count) (hq : q < X.count) (hon : on.Shows w.current L) :
    Yields w (a.addEdge p on q) fun b m =>
      e.Holds m ⟨X.count, connect X.nfa (· = p) L (· = q)⟩ b := by
  cases h with
  | symbolic shows count contained flag =>
    rw [← count] at hp hq
    apply (SymbolicNfa.addEdge_yields hw shows hon.denotes hp hq).map
    rintro b w1 - ⟨hcount, hflag, hb⟩
    rw [count] at hp hq hcount
    exact .symbolic hb hcount (contained.connect (fun _ h => h ▸ hp) fun _ h => h ▸ hq) hflag
  | matrix displays count ascending =>
    rw [← count] at hp hq
    apply (displays.addEdge_yields hw hp hq hon).map
    rintro b w1 - ⟨hb, hdisplays⟩
    exact .matrix hdisplays (hb.count.trans count) (hb.ascending ascending)

theorem Holds.addEdgeSets_yields (h : e.Holds w.current X a) (hw : w.current.WellFormed)
    (hs : a.Selects w.current s S) (ht : a.Selects w.current t T) (hslen : s.domain.len ≤ 64)
    (htlen : t.domain.len ≤ 64) (hon : on.Shows w.current L) :
    Yields w (a.addEdgeSets s on t) fun b m =>
      e.Holds m ⟨X.count, connect X.nfa (· ∈ S) L (· ∈ T)⟩ b := by
  have hshows := h.shows
  cases h with
  | symbolic shows count contained flag =>
    have hsfit := (hs.movable hshows).fits (sourceBlock _) rfl sourceBlock_base_le
    have htfit := (ht.movable hshows).fits (destBlock _) rfl destBlock_base_le
    apply (SymbolicNfa.addEdgeSets_yields hw shows hs.shows ht.shows hon.denotes hsfit htfit).map
    rintro b w1 - ⟨hcount, hflag, hb⟩
    refine .symbolic hb (hcount.trans count) ?_ hflag
    rw [← count]
    exact (count ▸ contained).connect hs.states ht.states
  | matrix displays count ascending =>
    apply (Automaton.addEdgeSets_displays displays hw hs ht hslen htlen hon).imp
    rintro b w1 - ⟨c, rfl, hc⟩
    exact .matrix hc.displays (hc.alike.count.trans count) (hc.alike.ascending ascending)

end Encoding

/-- A call that adds to an automaton. -/
inductive Addition
  | state (accepting starting : Bool)
  | edge (p : Nat) (on : SymbolSet) (q : Nat)
  | edgeSets (s : ValueSet) (on : SymbolSet) (t : ValueSet)

variable {w w' : Workspace} {m : Manager} {e e' : Encoding} {X : Content} {a b : Automaton}

namespace Addition

/-- A new state is returned with its number. -/
def run : Addition → Automaton → BddM (Option Nat × Automaton)
  | state accepting starting, a => do
    let (q, b) ← a.addState accepting starting
    return (some q, b)
  | edge p on q, a => do return (none, ← a.addEdge p on q)
  | edgeSets s on t, a => do return (none, ← a.addEdgeSets s on t)

/-- Fewer than `2 ^ 32` states are made, and edges are added between them. The numbers of a set are
64-bit words. -/
def Fair (m : Manager) (a : Automaton) : Addition → Prop
  | state _ _ => a.size + 1 < 2 ^ 32
  | edge p on q => p < a.size ∧ q < a.size ∧ ∃ L, on.Shows m L
  | edgeSets s on t => (s.domain.len ≤ 64 ∧ a.Names m s) ∧ (∃ L, on.Shows m L) ∧
      t.domain.len ≤ 64 ∧ a.Names m t

def Known (m : Manager) : Addition → Prop
  | state _ _ => True
  | edge _ on _ => on.Belongs m
  | edgeSets s on t => s.Belongs m ∧ on.Belongs m ∧ t.Belongs m

def reply (X : Content) : Addition → Option Nat
  | state _ _ => some X.count
  | edge _ _ _ | edgeSets _ _ _ => none

def apply (m : Manager) (X : Content) : Addition → Content
  | state accepting starting =>
    ⟨X.count + 1, enlarge X.nfa X.count (X.count + 1) accepting starting⟩
  | edge p on q => ⟨X.count, connect X.nfa (· = p) (· ∈ on.numbers m) (· = q)⟩
  | edgeSets s on t =>
    ⟨X.count, connect X.nfa (· ∈ s.numbers m) (· ∈ on.numbers m) (· ∈ t.numbers m)⟩

variable {c : Addition}

theorem Fair.known (h : c.Fair m a) : c.Known m := by
  cases c with
  | state accepting starting => trivial
  | edge p on q =>
    obtain ⟨-, -, L, hon⟩ := h
    exact hon.belongs
  | edgeSets s on t =>
    obtain ⟨⟨-, hs⟩, ⟨L, hon⟩, -, ht⟩ := h
    exact ⟨hs.belongs, hon.belongs, ht.belongs⟩

theorem Fair.later (h : c.Fair w.current a) (hl : w.Leads w') : c.Fair w'.current a := by
  cases c with
  | state accepting starting => exact h
  | edge p on q =>
    obtain ⟨hp, hq, L, hon⟩ := h
    exact ⟨hp, hq, L, hon.later hl⟩
  | edgeSets s on t =>
    obtain ⟨⟨hslen, hs⟩, ⟨L, hon⟩, htlen, ht⟩ := h
    exact ⟨⟨hslen, hs.later hl⟩, ⟨L, hon.later hl⟩, htlen, ht.later hl⟩

theorem Fair.of_size (h : c.Fair m a) (hsize : a.size = b.size) : c.Fair m b := by
  cases c with
  | state accepting starting =>
    change b.size + 1 < 2 ^ 32
    exact hsize ▸ h
  | edge p on q => exact ⟨hsize ▸ h.1, hsize ▸ h.2.1, h.2.2⟩
  | edgeSets s on t =>
    obtain ⟨⟨hslen, hs⟩, hon, htlen, ht⟩ := h
    exact ⟨⟨hslen, hs.of_size hsize⟩, hon, htlen, ht.of_size hsize⟩

theorem Known.later (h : c.Known w.current) (hl : w.Leads w') : c.Known w'.current := by
  cases c with
  | state accepting starting => trivial
  | edge p on q => exact h.later hl
  | edgeSets s on t => exact ⟨h.1.later hl, h.2.1.later hl, h.2.2.later hl⟩

theorem Known.apply_later (h : c.Known w.current) (hl : w.Leads w') :
    c.apply w'.current X = c.apply w.current X := by
  have hset : ∀ {s : ValueSet}, s.Belongs w.current → s.numbers w'.current = s.numbers w.current :=
    fun hs => numbers_later hs.has hl
  have hletters : ∀ {on : SymbolSet}, on.Belongs w.current →
      on.numbers w'.current = on.numbers w.current := fun hon => numbers_later hon.has hl
  cases c with
  | state accepting starting => rfl
  | edge p on q => simp only [apply, hletters h]
  | edgeSets s on t => simp only [apply, hset h.1, hletters h.2.1, hset h.2.2]

/-- Whatever the encoding, the call changes what it holds in the same way. -/
theorem run_yields (h : e.Holds w.current X a) (hw : w.current.WellFormed)
    (hc : c.Fair w.current a) :
    Yields w (c.run a) fun r m => r.1 = c.reply X ∧ e.Holds m (c.apply w.current X) r.2 := by
  have hsize := h.size
  cases c with
  | state accepting starting =>
    apply Runs.bind (h.addState_yields accepting starting hw (hsize ▸ hc))
    rintro ⟨q, b⟩ w1 hl1 ⟨rfl, hb⟩
    exact Runs.pure hl1.after ⟨rfl, hb⟩
  | edge p on q =>
    obtain ⟨hp, hq, L, hon⟩ := hc
    apply Runs.bind (h.addEdge_yields hw (hsize ▸ hp) (hsize ▸ hq) hon.numbers)
    exact fun b w1 hl1 hb => Runs.pure hl1.after ⟨rfl, hb⟩
  | edgeSets s on t =>
    obtain ⟨⟨hslen, hs⟩, ⟨L, hon⟩, htlen, ht⟩ := hc
    apply Runs.bind (h.addEdgeSets_yields hw hs.selects ht.selects hslen htlen hon.numbers)
    exact fun b w1 hl1 hb => Runs.pure hl1.after ⟨rfl, hb⟩

end Addition

/-- What calls make of no states at all; the last call stands first. -/
def content (m : Manager) (cs : List Addition) : Content :=
  cs.foldr (fun c X => c.apply m X) ⟨0, bare⟩

theorem content_later {cs : List Addition} (h : ∀ c ∈ cs, c.Known w.current) (hl : w.Leads w') :
    content w'.current cs = content w.current cs := by
  induction cs with
  | nil => rfl
  | cons c cs ih =>
    have hc := h c (by simp)
    have hcs := ih fun d hd => h d (by simp [hd])
    simp only [content, List.foldr_cons] at hcs ⊢
    rw [hcs, hc.apply_later hl]

namespace Encoding

def empty : Encoding → BddM Automaton
  | symbolic => Automaton.symbolic <$> SymbolicNfa.empty
  | matrix => Automaton.matrix <$> MatrixNfa.empty

def of : Encoding → Automaton → BddM Automaton
  | symbolic, a => Automaton.symbolic <$> SymbolicNfa.ofAutomaton a
  | matrix, a => Automaton.matrix <$> MatrixNfa.ofAutomaton a

theorem empty_yields (hw : w.current.WellFormed) :
    Yields w e.empty fun a m => e.Holds m ⟨0, bare⟩ a := by
  cases e with
  | symbolic =>
    apply (SymbolicNfa.ofCount_yields hw (by decide)).map
    rintro a w1 - ⟨hcount, hflag, ha⟩
    exact .symbolic ha hcount (bare_contained 0) hflag
  | matrix =>
    apply (MatrixNfa.empty_displays hw).map
    rintro a w1 - ⟨hcount, hstarting, haccepting, ha⟩
    exact .matrix ha hcount ⟨hstarting ▸ .nil, haccepting ▸ .nil⟩

theorem of_yields (h : e.Holds w.current X a) (hw : w.current.WellFormed) :
    Yields w (e'.of a) fun b m => e'.Holds m X b := by
  have hsize := h.size
  have hcontained := h.contained
  cases e' with
  | symbolic =>
    rw [hsize] at hcontained
    apply (SymbolicNfa.ofAutomaton_runs hw hcontained (hsize ▸ h.shows.few) fun w1 hl1 =>
      (h.later hl1).answers hl1.after).map
    rintro b w1 - ⟨hcount, hflag, hb⟩
    exact .symbolic hb hcount hcontained hflag
  | matrix =>
    apply (MatrixNfa.ofAutomaton_yields hw h.shows hcontained).map
    rintro b w1 - ⟨hcount, hascending, hb⟩
    exact .matrix hb (hcount.trans hsize) hascending

end Encoding

/-- An automaton of an encoding, made by calls and still at hand. It may have been converted in
between, and other work may have been done with the manager. -/
inductive Made : Encoding → List Addition → Workspace → Automaton → Prop
  | empty {e : Encoding} {w w' : Workspace} {a : Automaton} (ready : w.current.WellFormed)
      (run : e.empty w = .ok a w') : Made e [] w' a
  | adds {e : Encoding} {cs : List Addition} {c : Addition} {w w' : Workspace} {a b : Automaton}
      {n : Option Nat} (made : Made e cs w a) (fair : c.Fair w.current a)
      (run : c.run a w = .ok (n, b) w') : Made e (c :: cs) w' b
  | converts {e e' : Encoding} {cs : List Addition} {w w' : Workspace} {a b : Automaton}
      (made : Made e cs w a) (run : e'.of a w = .ok b w') : Made e' cs w' b
  | works {e : Encoding} {cs : List Addition} {w w' : Workspace} {a : Automaton}
      (made : Made e cs w a) (leads : w.Leads w') : Made e cs w' a

/-- The sets of the calls are still in the manager, and the automaton holds what the calls make. -/
structure Recorded (e : Encoding) (cs : List Addition) (w : Workspace) (a : Automaton) : Prop where
  ready : w.current.WellFormed
  known : ∀ c ∈ cs, c.Known w.current
  holds : e.Holds w.current (content w.current cs) a

section Histories

variable {cs : List Addition} {c : Addition} {q : Question}

theorem Recorded.works (h : Recorded e cs w a) (hl : w.Leads w') : Recorded e cs w' a where
  ready := hl.after
  known d hd := (h.known d hd).later hl
  holds := by
    rw [content_later h.known hl]
    exact h.holds.later hl

theorem Recorded.adds {r : Option Nat × Automaton} (h : Recorded e cs w a)
    (hc : c.Fair w.current a) (hrun : c.run a w = .ok r w') : Recorded e (c :: cs) w' r.2 := by
  obtain ⟨hl, -, hb⟩ := (c.run_yields h.holds h.ready hc).of_ok hrun
  have hknown : ∀ d ∈ c :: cs, d.Known w.current := by
    intro d hd
    rcases List.mem_cons.1 hd with rfl | hd
    · exact hc.known
    · exact h.known d hd
  refine ⟨hl.after, fun d hd => (hknown d hd).later hl, ?_⟩
  rw [content_later hknown hl]
  exact hb

theorem Recorded.converts (h : Recorded e cs w a) (hrun : e'.of a w = .ok b w') :
    Recorded e' cs w' b := by
  obtain ⟨hl, hb⟩ := (Encoding.of_yields h.holds h.ready).of_ok hrun
  have h' := h.works hl
  refine ⟨h'.ready, h'.known, ?_⟩
  rw [content_later h.known hl]
  exact hb

theorem Made.recorded (h : Made e cs w a) : Recorded e cs w a := by
  induction h with
  | empty ready run =>
    obtain ⟨hl, ha⟩ := (Encoding.empty_yields ready).of_ok run
    exact ⟨hl.after, by simp, ha⟩
  | adds _ fair run ih => exact ih.adds fair run
  | converts _ run ih => exact ih.converts run
  | works _ leads ih => exact ih.works leads

/-- One after the other, the automata give the same answer to a question and take the same call, and
each of them is what the other is converted to. -/
structure Agree (w : Workspace) (e e' : Encoding) (a b : Automaton) : Prop where
  answers : ∀ q : Question, q.Fair w.current a → ∃ x w₁ w₂,
    q.ask a w = .ok x w₁ ∧ q.ask b w₁ = .ok x w₂
  additions : ∀ c : Addition, c.Fair w.current a → ∃ n a' b' w₁ w₂,
    c.run a w = .ok (n, a') w₁ ∧ c.run b w₁ = .ok (n, b') w₂
  conversions : ∃ w₁ w₂, e'.of a w = .ok b w₁ ∧ e.of b w₁ = .ok a w₂

theorem Recorded.size_eq (ha : Recorded e cs w a) (hb : Recorded e' cs w b) : a.size = b.size :=
  ha.holds.size.trans hb.holds.size.symm

theorem Recorded.answers (ha : Recorded e cs w a) (hb : Recorded e' cs w b)
    (hq : q.Fair w.current a) : ∃ x w₁ w₂, q.ask a w = .ok x w₁ ∧ q.ask b w₁ = .ok x w₂ := by
  obtain ⟨x, w₁, hrun, hl, hx⟩ := yields_iff.1 (Question.ask_yields ha.holds ha.ready hq)
  have hb₁ := hb.works hl
  obtain ⟨y, w₂, hrun', hl', hy⟩ := yields_iff.1 (Question.ask_yields hb₁.holds hb₁.ready
    ((hq.later hl).of_size (ha.size_eq hb)))
  rw [content_later ha.known hl, hq.meaning_later hl] at hy
  obtain rfl : x = y := (hx.later hl').unique hy hl'.after.canonical
  exact ⟨x, w₁, w₂, hrun, hrun'⟩

theorem Recorded.additions (ha : Recorded e cs w a) (hb : Recorded e' cs w b)
    (hc : c.Fair w.current a) : ∃ n a' b' w₁ w₂,
      c.run a w = .ok (n, a') w₁ ∧ c.run b w₁ = .ok (n, b') w₂ := by
  obtain ⟨⟨n, a'⟩, w₁, hrun, hl, hn, -⟩ := yields_iff.1 (c.run_yields ha.holds ha.ready hc)
  have hb₁ := hb.works hl
  obtain ⟨⟨n', b'⟩, w₂, hrun', -, hn', -⟩ := yields_iff.1 (c.run_yields hb₁.holds hb₁.ready
    ((hc.later hl).of_size (ha.size_eq hb)))
  rw [content_later ha.known hl] at hn'
  obtain rfl : n = n' := hn.trans hn'.symm
  exact ⟨n, a', b', w₁, w₂, hrun, hrun'⟩

/-- An automaton is converted to the one that the same calls make in the other encoding. -/
theorem Recorded.converted (ha : Recorded e cs w a) (hb : Recorded e' cs w b) :
    ∃ w₁, e'.of a w = .ok b w₁ ∧ w.Leads w₁ := by
  have hyields : Yields w (e'.of a) fun b m => e'.Holds m (content w.current cs) b :=
    Encoding.of_yields ha.holds ha.ready
  obtain ⟨b', w₁, hrun, hl, hb'⟩ := yields_iff.1 hyields
  obtain rfl : b' = b := hb'.unique (hb.holds.later hl) hl.after.canonical
  exact ⟨w₁, hrun, hl⟩

/-- The calls that make an automaton tell all about it, in whatever encoding they made it. -/
theorem agree_of_made (ha : Made e cs w a) (hb : Made e' cs w b) : Agree w e e' a b := by
  have ha := ha.recorded
  have hb := hb.recorded
  refine ⟨fun q hq => ha.answers hb hq, fun c hc => ha.additions hb hc, ?_⟩
  obtain ⟨w₁, hrun, hl⟩ := ha.converted hb
  obtain ⟨w₂, hrun', -⟩ := (hb.works hl).converted (ha.works hl)
  exact ⟨w₁, w₂, hrun, hrun'⟩

theorem Made.exists_adds (h : Made e cs w a) (hc : c.Fair w.current a) :
    ∃ b w', w.Leads w' ∧ Made e (c :: cs) w' b := by
  have hr := h.recorded
  obtain ⟨⟨n, b⟩, w', hrun, hl, -⟩ := yields_iff.1 (c.run_yields hr.holds hr.ready hc)
  exact ⟨b, w', hl, h.adds hc hrun⟩

theorem Made.exists_state {n : Nat} (h : Made e cs w a)
    (hcount : (content w.current cs).count = n) (hfew : n + 1 < 2 ^ 32)
    (accepting starting : Bool) :
    ∃ b w', w.Leads w' ∧ Made e (.state accepting starting :: cs) w' b := by
  apply h.exists_adds
  change a.size + 1 < 2 ^ 32
  rwa [h.recorded.holds.size, hcount]

theorem exists_made_edge (hw : w.current.WellFormed) (e : Encoding) :
    ∃ a w', w.Leads w' ∧ Made e [.edge 0 (.universal w.current.id) 2, .state true false,
      .state false false, .state false true] w' a := by
  obtain ⟨a₀, w₀, hrun, hl₀, -⟩ := yields_iff.1 (Encoding.empty_yields (e := e) hw)
  have h₀ : Made e [] w₀ a₀ := .empty hw hrun
  obtain ⟨a₁, w₁, hl₁, h₁⟩ := h₀.exists_state (n := 0) rfl (by decide) false true
  obtain ⟨a₂, w₂, hl₂, h₂⟩ := h₁.exists_state (n := 1) rfl (by decide) false false
  obtain ⟨a₃, w₃, hl₃, h₃⟩ := h₂.exists_state (n := 2) rfl (by decide) true false
  have hl := hl₀.trans (hl₁.trans (hl₂.trans hl₃))
  have hsize : a₃.size = 3 := h₃.recorded.holds.size
  have hon : (SymbolSet.universal w.current.id).Shows w₃.current fun _ => True :=
    ⟨hl.grows.id.symm, SymbolicNfa.universal_denotes hl.after.canonical _⟩
  obtain ⟨a₄, w₄, hl₄, h₄⟩ := h₃.exists_adds (c := .edge 0 (.universal w.current.id) 2)
    ⟨by omega, by omega, _, hon⟩
  exact ⟨a₄, w₄, hl.trans hl₄, h₄⟩

theorem agree_of_made_edge : ∃ m w a b, Manager.new 0 1 1 = .ok m ∧
    Workspace.Leads ⟨m, []⟩ w ∧ Agree w .symbolic .matrix a b ∧ Agree w .matrix .symbolic b a := by
  obtain ⟨m, hm⟩ : ∃ m, Manager.new 0 1 1 = .ok m := ⟨_, rfl⟩
  have hw := Manager.wellFormed_new hm
  obtain ⟨a, w₁, hl₁, ha⟩ := exists_made_edge (w := ⟨m, []⟩) hw .symbolic
  obtain ⟨b, w₂, hl₂, hb⟩ := exists_made_edge hl₁.after .matrix
  rw [hl₁.grows.id] at hb
  have ha := ha.works hl₂
  exact ⟨m, w₂, a, b, hm, hl₁.trans hl₂, agree_of_made ha hb, agree_of_made hb ha⟩

end Histories

end SymbolicAutomata
