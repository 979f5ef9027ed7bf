import SymbolicAutomata.Proofs.Splittings
/-!
# Replacing what remains of a function

What remains of a function below a level is replaced by what a callback makes of it. The callback is
called once for each remaining function, in the order in which the walk finds them, and nothing but
these calls touches its state. The result has the value of the answer to the function that the
assignment leads to.
-/
namespace SymbolicAutomata

namespace Bdd

open Manager

variable {σ α β : Type} {p : Prop} {w₀ w w₁ w' : Workspace} {level : Nat} {f₀ f : Ref}
  {g : Ref → StateT σ BddM Ref} {st st₁ st' : σ}

theorem Runs.state_bind {x : StateT σ BddM α} {y : α → StateT σ BddM β}
    {Q : α × σ → Manager → Prop} {S : β × σ → Manager → Prop} (hx : Runs p w (x st) Q)
    (hy : ∀ a st' w', w.Leads w' → Q (a, st') w'.current → Runs p w' (y a st') S) :
    Runs p w ((x >>= y) st) S :=
  .bind hx fun a w' hl hQ => hy a.1 a.2 w' hl hQ

theorem state_lift_bind (x : BddM α) (y : α → StateT σ BddM β) (st : σ) :
    (liftM x >>= y : StateT σ BddM β) st = x >>= fun a => y a st := by
  funext w
  change EStateM.bind (EStateM.bind x fun a => pure (a, st)) (fun a => y a.1 a.2) w =
    EStateM.bind x (fun a => y a st) w
  unfold EStateM.bind
  cases x w <;> rfl

theorem Runs.state_lift {x : BddM α} {y : α → StateT σ BddM β}
    {Q : α → Manager → Prop} {S : β × σ → Manager → Prop} (hx : Runs p w x Q)
    (hy : ∀ a w', w.Leads w' → Q a w'.current → Runs p w' (y a st) S) :
    Runs p w ((liftM x >>= y : StateT σ BddM β) st) S := by
  rw [state_lift_bind]
  exact .bind hx hy

theorem Runs.state_ask {q : Manager → Except Failure α} {a : α} {y : α → StateT σ BddM β}
    {S : β × σ → Manager → Prop} (hq : q w.current = .ok a)
    (hy : Runs p w (y a st) S) :
    Runs p w ((liftM (Bdd.ask q) >>= y : StateT σ BddM β) st) S := by
  rw [state_lift_bind]
  exact .ask_bind hq hy

section Calls

/-- What stands in was called for the functions on the left, one after the other, and each call
returned the reference beside it. Between the calls its state stays and the manager goes on. -/
inductive Served (g : Ref → StateT σ BddM Ref) :
    List (Ref × Ref) → σ → Workspace → σ → Workspace → Prop
  | done {st : σ} {w w' : Workspace} (later : w.Leads w') : Served g [] st w st w'
  | call {t q : Ref} {calls : List (Ref × Ref)} {st st₁ st' : σ} {w w₁ w₂ w' : Workspace}
      (later : w.Leads w₁) (ran : g t st w₁ = .ok (q, st₁) w₂) (leads : w₁.Leads w₂)
      (rest : Served g calls st₁ w₂ st' w') : Served g ((t, q) :: calls) st w st' w'

variable {calls more : List (Ref × Ref)} {ts us : List Ref}

theorem Served.leads (h : Served g calls st w st' w') : w.Leads w' := by
  induction h with
  | done later => exact later
  | call later ran leads rest ih => exact (later.trans leads).trans ih

theorem Served.after (hl : w.Leads w₁) (h : Served g calls st w₁ st' w') :
    Served g calls st w st' w' := by
  cases h with
  | done later => exact .done (hl.trans later)
  | call later ran leads rest => exact .call (hl.trans later) ran leads rest

theorem Served.append (h : Served g calls st w st₁ w₁) (h' : Served g more st₁ w₁ st' w') :
    Served g (calls ++ more) st w st' w' := by
  induction h with
  | done later => exact h'.after later
  | call later ran leads rest ih => exact .call later ran leads (ih h')

/-- The computation calls `g` for the given functions, one after the other. What it returns, the
calls with their answers and the new manager satisfy `Q`. It fails only where a call fails, and then
`p` holds. -/
inductive Calls (p : Prop) (g : Ref → StateT σ BddM Ref) (ts : List Ref) (st : σ) (w : Workspace)
    (x : BddM (α × σ)) (Q : α × σ → List (Ref × Ref) → Manager → Prop) : Prop
  | returns {a : α × σ} {calls : List (Ref × Ref)} {w' : Workspace} (ran : x w = .ok a w')
      (all : calls.map Prod.fst = ts) (served : Served g calls st w a.2 w')
      (result : Q a calls w'.current)
  | fails {e : Failure} {t : Ref} {rest : List Ref} {calls : List (Ref × Ref)} {st₁ : σ}
      {w₁ w' : Workspace} (ran : x w = .error e w') (possible : p) (leads : w.Leads w')
      (some : calls.map Prod.fst ++ t :: rest = ts) (served : Served g calls st w st₁ w₁)
      (failed : g t st₁ w₁ = .error e w')

variable {x y : BddM (α × σ)} {Q : α × σ → List (Ref × Ref) → Manager → Prop}
  {R : β × σ → List (Ref × Ref) → Manager → Prop}

theorem Calls.runs (h : Calls p g ts st w x Q) :
    Runs p w x fun a m => ∃ calls, calls.map Prod.fst = ts ∧ Q a calls m := by
  unfold Runs
  cases h with
  | returns ran all served result =>
    rw [ran]
    exact ⟨served.leads, _, all, result⟩
  | fails ran possible leads some served failed =>
    rw [ran]
    exact ⟨possible, leads⟩

theorem Calls.imp {Q' : α × σ → List (Ref × Ref) → Manager → Prop} (h : Calls p g ts st w x Q)
    (hQ : ∀ a calls w', w.Leads w' → Q a calls w'.current → Q' a calls w'.current) :
    Calls p g ts st w x Q' := by
  cases h with
  | returns ran all served result =>
    exact .returns ran all served (hQ _ _ _ served.leads result)
  | fails ran possible leads some served failed =>
    exact .fails ran possible leads some served failed

theorem Calls.pure {a : α × σ} (hw : w.current.WellFormed) (h : Q a [] w.current) :
    Calls p g [] a.2 w (pure a) Q := .returns rfl rfl (.done (.refl hw)) h

theorem Calls.after (hl : w.Leads w₁) (hrun : x w = y w₁) (h : Calls p g ts st w₁ y Q) :
    Calls p g ts st w x Q := by
  cases h with
  | returns ran all served result =>
    exact .returns (hrun.trans ran) all (served.after hl) result
  | fails ran possible leads some served failed =>
    exact .fails (hrun.trans ran) possible (hl.trans leads) some (served.after hl) failed

theorem Calls.one {t : Ref} {S : Ref × σ → Manager → Prop} (h : Runs p w (g t st) S)
    (hw : w.current.WellFormed) :
    Calls p g [t] st w (g t st) fun a calls m => calls = [(t, a.1)] ∧ S a m := by
  unfold Runs at h
  cases hrun : g t st w with
  | ok a w' =>
    rw [hrun] at h
    have hserved : Served g [(t, a.1)] st w a.2 w' :=
      .call (.refl hw) hrun h.1 (.done (.refl h.1.after))
    exact .returns hrun rfl hserved ⟨rfl, h.2⟩
  | error e w' =>
    rw [hrun] at h
    have hserved : Served g [] st w st w := .done (.refl hw)
    exact .fails hrun h.1 h.2 rfl hserved hrun

/-- Calls of the first step come before those of the second, and a failure ends both. -/
theorem Calls.bind {x : StateT σ BddM α} {y : α → StateT σ BddM β}
    (hx : Calls p g ts st w (x st) Q)
    (hy : ∀ a st₁ calls w₁, w.Leads w₁ → Q (a, st₁) calls w₁.current →
      Calls p g us st₁ w₁ (y a st₁) fun b more m => R b (calls ++ more) m) :
    Calls p g (ts ++ us) st w ((x >>= y) st) R := by
  cases hx with
  | @returns a calls w₁ ran all served result =>
    have hrun : (x >>= y) st w = y a.1 a.2 w₁ := bind_of_ok ran
    subst all
    cases hy a.1 a.2 calls w₁ served.leads result with
    | returns ran' all' served' result' =>
      refine .returns (hrun.trans ran') ?_ (served.append served') result'
      rw [List.map_append, all']
    | @fails e t rest more st₁ w₂ w' ran' possible leads some' served' failed =>
      have hsome : (calls ++ more).map Prod.fst ++ t :: rest = calls.map Prod.fst ++ us := by
        rw [List.map_append, List.append_assoc, some']
      exact .fails (hrun.trans ran') possible (served.leads.trans leads) hsome
        (served.append served') failed
  | @fails e t rest calls st₁ w₁ w' ran possible leads some served failed =>
    have hrun : (x >>= y) st w = .error e w' := bind_of_error ran
    have hsome : calls.map Prod.fst ++ t :: (rest ++ us) = ts ++ us := by
      rw [← some, List.append_assoc, List.cons_append]
    exact .fails hrun possible leads hsome served failed

theorem Calls.lift {x : BddM α} {y : α → StateT σ BddM β} {S : α → Manager → Prop}
    (hx : Yields w x S)
    (hy : ∀ a w₁, w.Leads w₁ → S a w₁.current → Calls p g ts st w₁ (y a st) R) :
    Calls p g ts st w ((liftM x >>= y : StateT σ BddM β) st) R := by
  obtain ⟨a, w₁, hrun, hl, hS⟩ := yields_iff.1 hx
  refine .after hl ?_ (hy a w₁ hl hS)
  rw [state_lift_bind]
  exact bind_of_ok hrun

theorem Calls.ask {q : Manager → Except Failure α} {a : α} {y : α → StateT σ BddM β}
    (hw : w.current.WellFormed) (hq : q w.current = .ok a) (hy : Calls p g ts st w (y a st) R) :
    Calls p g ts st w ((liftM (Bdd.ask q) >>= y : StateT σ BddM β) st) R := by
  refine .after (.refl hw) ?_ hy
  rw [state_lift_bind]
  exact ask_bind_eq hq

end Calls

/-- What stands in for the remaining functions. The state of the replacement satisfies `I`, and what
it makes of `t` stands in the relation `K` to it, then and in all later managers. -/
structure Replaces (w₀ : Workspace) (p : Prop) (level : Nat) (f₀ : Ref)
    (g : Ref → StateT σ BddM Ref) (I : σ → Manager → Prop) (K : Ref → Ref → Manager → Prop) :
    Prop where
  call : ∀ (w : Workspace) t st, w₀.Leads w → I st w.current →
    (∃ s, w₀.current.Remains level f₀ s t) →
    Runs p w (g t st) fun a m => I a.2 m ∧ m.Has a.1 ∧ K t a.1 m
  state : ∀ (w w' : Workspace) st, w.Leads w' → I st w.current → I st w'.current
  made : ∀ (w w' : Workspace) t r, w.Leads w' → K t r w.current → K t r w'.current

/-- The value of `r` is that of what stands in for the function that remains of `f`. -/
def Replaced (m₀ : Manager) (level : Nat) (K : Ref → Ref → Manager → Prop) (m : Manager)
    (f r : Ref) : Prop :=
  m.Has r ∧ ∀ s t, m₀.Remains level f s t → ∃ q, m.Has q ∧ K t q m ∧ m.eval r s = m.eval q s

theorem Replaced.imp {m₀ m : Manager} {K K' : Ref → Ref → Manager → Prop} {r : Ref}
    (h : Replaced m₀ level K m f r) (hK : ∀ t q, K t q m → K' t q m) :
    Replaced m₀ level K' m f r := by
  refine ⟨h.1, fun s t ht => ?_⟩
  obtain ⟨q, hq, hk, he⟩ := h.2 s t ht
  exact ⟨q, hq, hK t q hk, he⟩

theorem Replaced.later {m₀ : Manager} {K : Ref → Ref → Manager → Prop} {r : Ref}
    (h : Replaced m₀ level K w.current f r) (hl : w.Leads w')
    (hK : ∀ t q, K t q w.current → K t q w'.current) : Replaced m₀ level K w'.current f r := by
  refine ⟨hl.grows.has h.1, fun s t ht => ?_⟩
  obtain ⟨q, hq, hk, he⟩ := h.2 s t ht
  exact ⟨q, hl.grows.has hq, hK t q hk, by rw [hl.eval hq, hl.eval h.1, he]⟩

/-- Where nothing is left to decide, the replacement stands in for the function itself. -/
theorem Replaced.of_decided {m₀ m : Manager} {K : Ref → Ref → Manager → Prop} {r : Ref}
    (hc : m₀.Canonical) (hd : m₀.DecidedBelow level f) (hf : m₀.Has f) (hr : m.Has r)
    (hk : K f r m) : Replaced m₀ level K m f r := by
  refine ⟨hr, fun s t ht => ?_⟩
  obtain rfl := ht.eq_of_decided hc hd hf
  exact ⟨r, hr, hk, rfl⟩

/-- The side that an assignment chooses decides what remains. -/
theorem Replaced.of_sides {m₀ m : Manager} {K : Ref → Ref → Manager → Prop} {n : Node}
    {low high r : Ref} (hc : m₀.Canonical) (hn : m₀.Stores f.index n) (hv : n.var < level)
    (hlow : Replaced m₀ level K m ((n.side false).negIf f.negated) low)
    (hhigh : Replaced m₀ level K m ((n.side true).negIf f.negated) high) (hr : m.Has r)
    (heval : ∀ s : Assignment, m.eval r s = if s n.var then m.eval high s else m.eval low s) :
    Replaced m₀ level K m f r := by
  refine ⟨hr, fun s t ht => ?_⟩
  rw [remains_side hc hn hv] at ht
  cases hs : s n.var with
  | false =>
    rw [hs] at ht
    obtain ⟨q, hq, hk, he⟩ := hlow.2 s t ht
    exact ⟨q, hq, hk, by rw [heval, hs, ← he]; rfl⟩
  | true =>
    rw [hs] at ht
    obtain ⟨q, hq, hk, he⟩ := hhigh.2 s t ht
    exact ⟨q, hq, hk, by rw [heval, hs, ← he]; rfl⟩

/-- An answer to the function that remains stands in for it. -/
def Answered (log : List (Ref × Ref)) (t q : Ref) (_ : Manager) : Prop := (t, q) ∈ log

theorem Replaced.answered {m₀ : Manager} {r : Ref} {log : List (Ref × Ref)}
    (h : Replaced m₀ level (Answered log) w.current f r) (hl : w.Leads w')
    (more : List (Ref × Ref)) : Replaced m₀ level (Answered (log ++ more)) w'.current f r :=
  (h.later hl fun _ _ hk => hk).imp fun _ _ hk => List.mem_append_left more hk

theorem Replaced.ite_yields {m₀ : Manager} {log : List (Ref × Ref)} {n : Node} {x low high : Ref}
    (hc : m₀.Canonical) (hn : m₀.Stores f.index n) (hv : n.var < level)
    (hw : w.current.WellFormed) (hx : w.current.Denotes x fun s => s n.var = true)
    (hlow : Replaced m₀ level (Answered log) w.current ((n.side false).negIf f.negated) low)
    (hhigh : Replaced m₀ level (Answered log) w.current ((n.side true).negIf f.negated) high) :
    Yields w (ite x high low) fun r m => Replaced m₀ level (Answered log) m f r := by
  refine (Bdd.ite_yields hw hx (denotes_eval hhigh.1) (denotes_eval hlow.1)).imp
    fun r w' hl hr => ?_
  refine .of_sides hc hn hv (hlow.later hl fun _ _ hk => hk) (hhigh.later hl fun _ _ hk => hk)
    hr.has fun s => ?_
  rw [hl.eval hhigh.1, hl.eval hlow.1, Bool.eq_iff_iff, hr.holds]
  cases s n.var <;> simp

/-- The walk with a memo is where the walk with the set of entered references is: it has left these,
save for the references above the one at hand, and what it has left is replaced by the answers so
far. -/
structure InStep (m₀ : Manager) (level : Nat) (visited : Std.TreeSet Ref)
    (log : List (Ref × Ref)) (above : List Ref) (memo : Memo) (m : Manager) : Prop where
  sound : memo.Sound (Replaced m₀ level (Answered log) m)
  entered : ∀ u, u ∈ visited ↔ u ∈ memo ∨ u ∈ above

section InStep

variable {m₀ m : Manager} {visited : Std.TreeSet Ref} {log : List (Ref × Ref)}
  {above : List Ref} {memo : Memo}

theorem InStep.later (h : InStep m₀ level visited log above memo w.current) (hl : w.Leads w')
    (more : List (Ref × Ref)) : InStep m₀ level visited (log ++ more) above memo w'.current where
  sound := h.sound.imp fun _ _ hr => hr.answered hl more
  entered := h.entered

theorem InStep.enter (h : InStep m₀ level visited log above memo m) (f : Ref) :
    InStep m₀ level (visited.insert f) log (f :: above) memo m where
  sound := h.sound
  entered u := by rw [mem_insert, h.entered u, List.mem_cons, or_left_comm]

theorem InStep.leave {r : Ref} (h : InStep m₀ level visited log (f :: above) memo m)
    (hr : Replaced m₀ level (Answered log) m f r) :
    InStep m₀ level visited log above (memo.insert f r) m where
  sound := h.sound.insert hr
  entered u := by
    rw [h.entered u, Std.TreeMap.mem_insert, Std.LawfulEqOrd.compare_eq_iff_eq, List.mem_cons,
      or_assoc, or_left_comm, eq_comm]

/-- A reference that has been entered is not above the one at hand, so it has been left. -/
theorem InStep.found (h : InStep m₀ level visited log above memo m)
    (habove : ∀ u ∈ above, f.index < u.index) (hf : f ∈ visited) :
    ∃ r, memo[f]? = some r ∧ Replaced m₀ level (Answered log) m f r := by
  have hmem : f ∈ memo :=
    ((h.entered f).1 hf).resolve_right fun hmem => Nat.lt_irrefl _ (habove f hmem)
  obtain ⟨r, hr⟩ := Option.isSome_iff_exists.1 (Std.TreeMap.mem_iff_isSome_getElem?.1 hmem)
  exact ⟨r, hr, h.sound f r hr⟩

theorem InStep.missing (h : InStep m₀ level visited log above memo m) (hf : f ∉ visited) :
    memo[f]? = none := by
  refine Option.not_isSome_iff_eq_none.1 fun hmem => hf ((h.entered f).2 (.inl ?_))
  exact Std.TreeMap.mem_iff_isSome_getElem?.2 hmem

end InStep

/-- The recursion calls what stands in for the functions that the walk keeps, in the order in which
the walk keeps them. By induction on the walk. -/
theorem replaceFrom_calls {I : σ → Manager → Prop} {K : Ref → Ref → Manager → Prop}
    (hg : Replaces w₀ p level f₀ g I K) (hf₀ : w₀.current.Has f₀)
    {visited visited' : Std.TreeSet Ref} {ts : List Ref}
    (hwalk : w₀.current.Walks level f visited ts visited') {fuel : Nat} {memo : Memo}
    {above : List Ref} {log : List (Ref × Ref)} (hl : w₀.Leads w)
    (hp : w₀.current.Passes level f₀ f) (hfuel : f.index < fuel) (hI : I st w.current)
    (habove : ∀ u ∈ above, f.index < u.index)
    (hmemo : InStep w₀.current level visited log above memo w.current) :
    Calls p g ts st w (replaceFrom level g fuel f memo st) fun a calls m =>
      (I a.2 m ∧ ∀ c ∈ calls, K c.1 c.2 m) ∧
      Replaced w₀.current level (Answered (log ++ calls)) m f a.1.1 ∧
      InStep w₀.current level visited' (log ++ calls) above a.1.2 m := by
  classical
  have hc := hl.before.canonical
  have hdec : ∀ {f w}, w₀.Leads w → w₀.current.Passes level f₀ f →
      w.current.decidedBelow level f = .ok (decide (w₀.current.DecidedBelow level f)) := by
    intro f w hl hp
    have hf := hp.has hc hf₀
    rw [hl.after.canonical.decidedBelow_eq (hl.grows.has hf),
      decide_eq_decide.2 (hl.grows.decidedBelow hf)]
  induction hwalk generalizing w fuel memo above log st with
  | @again f visited entered =>
    obtain ⟨fuel, rfl⟩ := Nat.exists_eq_add_one_of_ne_zero (Nat.ne_zero_of_lt hfuel)
    obtain ⟨r, hfind, hr⟩ := hmemo.found habove entered
    unfold replaceFrom
    rw [hfind]
    refine Calls.pure (a := ((r, memo), st)) hl.after ?_
    rw [List.append_nil]
    exact ⟨⟨hI, by simp⟩, hr, hmemo⟩
  | @keep f visited new decided =>
    obtain ⟨fuel, rfl⟩ := Nat.exists_eq_add_one_of_ne_zero (Nat.ne_zero_of_lt hfuel)
    unfold replaceFrom
    rw [hmemo.missing new]
    refine .ask hl.after (hdec hl hp) ?_
    rw [if_pos (decide_eq_true decided), ← List.append_nil [f]]
    refine Calls.bind (.one (hg.call w f st hl hI (hp.remains hc hf₀ decided)) hl.after)
      fun r st₁ calls w₁ hl₁ hr => ?_
    obtain ⟨rfl, hI₁, hhas, hk⟩ := hr
    have hrep : Replaced w₀.current level (Answered (log ++ [(f, r)])) w₁.current f r :=
      .of_decided hc decided (hp.has hc hf₀) hhas (by simp [Answered])
    refine Calls.pure (a := ((r, memo.insert f r), st₁)) hl₁.after ?_
    rw [List.append_nil]
    exact ⟨⟨hI₁, by simpa using hk⟩, hrep, ((hmemo.enter f).later hl₁ _).leave hrep⟩
  | @sides f n ts us visited visited₁ visited' new stored below low high ihlow ihhigh =>
    obtain ⟨fuel, rfl⟩ := Nat.exists_eq_add_one_of_ne_zero (Nat.ne_zero_of_lt hfuel)
    have hnode := hl.grows.stores stored
    have hopen : ¬ w₀.current.DecidedBelow level f := not_decidedBelow.2 ⟨n, stored, below⟩
    have hlt := fun b => (hc.side_spec stored b).2.1
    have hpass : ∀ b, w₀.current.Passes level f₀ ((n.side b).negIf f.negated) := fun b =>
      hp.trans (.step b stored below (.here _))
    have hhigher : ∀ b, ∀ u ∈ f :: above, ((n.side b).negIf f.negated).index < u.index := fun b =>
      List.forall_mem_cons.2 ⟨hlt b, fun u hu => Nat.lt_trans (hlt b) (habove u hu)⟩
    unfold replaceFrom
    rw [hmemo.missing new]
    refine .ask hl.after (hdec hl hp) ?_
    rw [if_neg (by simpa using hopen)]
    refine .ask hl.after hnode.var (.ask hl.after hnode.low ?_)
    refine Calls.bind (ihlow hl (hpass false) (Nat.lt_of_lt_of_le (hlt false) (by omega)) hI
      (hhigher false) (hmemo.enter f)) fun a st₁ calls₁ w₁ hl₁ ha => ?_
    obtain ⟨⟨hI₁, hK₁⟩, hlow₁, hmemo₁⟩ := ha
    refine .ask hl₁.after (hl₁.grows.stores hnode).high ?_
    rw [← List.append_nil us]
    refine Calls.bind (ihhigh (hl.trans hl₁) (hpass true)
      (Nat.lt_of_lt_of_le (hlt true) (by omega)) hI₁ (hhigher true) hmemo₁)
      fun b st₂ calls₂ w₂ hl₂ hb => ?_
    obtain ⟨⟨hI₂, hK₂⟩, hhigh₂, hmemo₂⟩ := hb
    refine .lift (literal_yields hl₂.after (hc.orderly _ n stored).var_pos) fun x w₃ hl₃ hx => ?_
    -- the low side stands in by answers that came before those for the high side
    have hlow₃ := hlow₁.answered (hl₂.trans hl₃) calls₂
    have hhigh₃ := hhigh₂.later hl₃ fun _ _ hk => hk
    refine .lift (Replaced.ite_yields hc stored below hl₃.after hx hlow₃ hhigh₃)
      fun r w₄ hl₄ hrep => ?_
    have hl₂₄ := hl₃.trans hl₄
    have hmemo₄ := hmemo₂.later hl₂₄ []
    refine Calls.pure (a := ((r, b.2.insert f r), st₂)) hl₄.after ?_
    rw [List.append_nil] at hmemo₄ ⊢
    rw [← List.append_assoc]
    refine ⟨⟨hg.state _ _ st₂ hl₂₄ hI₂, fun c hmem => ?_⟩, hrep, hmemo₄.leave hrep⟩
    rcases List.mem_append.1 hmem with hmem | hmem
    · exact hg.made _ _ c.1 c.2 (hl₂.trans hl₂₄) (hK₁ c hmem)
    · exact hg.made _ _ c.1 c.2 hl₂₄ (hK₂ c hmem)

/-- What stands in is called once for each remaining function, in the order of the list, and the
answers stand in for the functions. -/
theorem replaceBelow_calls {I : σ → Manager → Prop} {K : Ref → Ref → Manager → Prop}
    (hw : w.current.WellFormed) (hf : w.current.Has f) (hg : Replaces w p level f g I K)
    (hI : I st w.current) :
    ∃ ts, w.current.cofactorsBelow f level = .ok ts ∧ ts.Nodup ∧
      Calls p g ts st w (replaceBelow f level g st) fun a calls m =>
        (I a.2 m ∧ ∀ c ∈ calls, K c.1 c.2 m) ∧
        Replaced w.current level (Answered calls) m f a.1 := by
  obtain ⟨ts, visited, hwalk⟩ := exists_walks hw.canonical hf level ∅
  have hstart : InStep w.current level ∅ [] [] ∅ w.current := ⟨Memo.sound_empty, by simp⟩
  refine ⟨ts, hwalk.cofactorsBelow_eq hw.canonical hf, hwalk.nodup, .ask hw rfl ?_⟩
  rw [← List.append_nil ts]
  refine Calls.bind (replaceFrom_calls hg hf hwalk (.refl hw) (.here f) hf.lt_depthBound hI
    (by simp) hstart) fun a st₁ calls w₁ hl ha => ?_
  refine Calls.pure (a := (a.1, st₁)) hl.after ?_
  rw [List.append_nil]
  exact ⟨ha.1, ha.2.1⟩

/-- Replacing keeps what the replacement keeps, and its result has the value of what stands in for
the function that remains. -/
theorem replaceBelow_runs {I : σ → Manager → Prop} {K : Ref → Ref → Manager → Prop}
    (hw : w.current.WellFormed) (hf : w.current.Has f) (hg : Replaces w p level f g I K)
    (hI : I st w.current) :
    Runs p w (replaceBelow f level g st) fun a m =>
      I a.2 m ∧ Replaced w.current level K m f a.1 := by
  obtain ⟨ts, -, -, hcalls⟩ := replaceBelow_calls hw hf hg hI
  refine hcalls.runs.imp fun a w' _ ha => ?_
  obtain ⟨calls, -, ⟨hI', hK⟩, hrep⟩ := ha
  exact ⟨hI', hrep.imp fun t q hk => hK (t, q) hk⟩

/-- What stands in gets along with every manager. For a reference of the manager it returns one and
leaves the diagrams as they should be, or it fails, and then `p` holds. Its state satisfies `I`,
then and in all later managers. -/
structure Accords (p : Prop) (g : Ref → StateT σ BddM Ref) (I : σ → Manager → Prop) : Prop where
  call : ∀ (w : Workspace) t st, w.current.WellFormed → w.current.Has t → I st w.current →
    Runs p w (g t st) fun a m => I a.2 m ∧ m.Has a.1
  state : ∀ (w w' : Workspace) st, w.Leads w' → I st w.current → I st w'.current

theorem Accords.replaces {I : σ → Manager → Prop} (h : Accords p g I) :
    Replaces w p level f g I fun _ _ _ => True where
  call w' t st hl hI ht := by
    obtain ⟨s, hs⟩ := ht
    refine (h.call w' t st hl.after (hl.grows.has hs.has) hI).imp fun a w'' _ ha => ?_
    exact ⟨ha.1, ha.2, trivial⟩
  state := h.state
  made _ _ _ _ _ _ := trivial

/-- Each remaining function has a function of its own in its place. -/
theorem replaceBelow_yields {g : Ref → BddM Ref} {P : Ref → Assignment → Prop}
    (hw : w.current.WellFormed) (hf : w.current.Has f)
    (hg : ∀ w' t, w.Leads w' → (∃ s, w.current.Remains level f s t) →
      Yields w' (g t) fun r m => m.Denotes r (P t)) :
    Yields w ((replaceBelow f level fun t => StateT.lift (g t)).run' ()) fun r m =>
      m.Denotes r fun s => ∃ t, w.current.Remains level f s t ∧ P t s := by
  have hreplaces : Replaces w False level f (fun t => StateT.lift (g t))
      (fun (_ : Unit) _ => True) fun t r m => m.Denotes r (P t) := by
    refine ⟨fun w' t _ hl _ ht => ?_, fun _ _ _ _ _ => trivial, fun _ _ _ _ hl hk => hl.denotes hk⟩
    exact .bind (hg w' t hl ht) fun r w'' hl' hr => Runs.pure hl'.after ⟨trivial, hr.has, hr⟩
  refine .bind (replaceBelow_runs hw hf hreplaces trivial) fun a w' hl ha => Runs.pure hl.after ?_
  obtain ⟨-, hhas, hrep⟩ := ha
  refine ⟨hhas, fun s => ?_⟩
  obtain ⟨t, ht, -⟩ := exists_remains hw.canonical hf level s
  obtain ⟨q, -, hq, he⟩ := hrep s t ht
  rw [he, hq.holds]
  constructor
  · exact fun h => ⟨t, ht, h⟩
  · rintro ⟨u, hu, h⟩
    rwa [ht.unique hw.canonical hu]

/-- Replacing calls what stands in exactly once for each function in the list of those that remain,
in its order, and fails only where a call fails. Under every assignment the result evaluates as the
answer to the function that remains there. -/
theorem replaceBelow_of_wellFormed {I : σ → Manager → Prop} (hw : w.current.WellFormed)
    (hf : w.current.Has f) (level : Nat) (st : σ) (hg : Accords p g I) (hI : I st w.current) :
    ∃ ts, w.current.cofactorsBelow f level = .ok ts ∧ ts.Nodup ∧
      Calls p g ts st w (replaceBelow f level g st) fun a calls m => m.Has a.1 ∧
        ∀ s : Assignment, ∃ t q b, (t, q) ∈ calls ∧ w.current.Remains level f s t ∧
          m.evaluate q (fun v => .ok (s v)) = .ok b ∧
          m.evaluate a.1 (fun v => .ok (s v)) = .ok b := by
  obtain ⟨ts, hts, hnodup, hcalls⟩ := replaceBelow_calls hw hf hg.replaces hI
  refine ⟨ts, hts, hnodup, hcalls.imp fun a calls w' hl ha => ?_⟩
  obtain ⟨-, hhas, hrep⟩ := ha
  have hc := hl.after.canonical
  refine ⟨hhas, fun s => ?_⟩
  obtain ⟨t, ht, -⟩ := exists_remains hw.canonical hf level s
  obtain ⟨q, hq, hcall, heval⟩ := hrep s t ht
  refine ⟨t, q, _, hcall, ht, hc.evaluate_eq hq s, ?_⟩
  rw [hc.evaluate_eq hhas, heval]

theorem exor_literals_yields {u v : Nat} (hw : w.current.WellFormed) (hu : 0 < u) (hv : 0 < v) :
    Yields w (do exor (← literal u) (← literal v)) fun r m =>
      m.Denotes r fun s => ¬ (s u = true ↔ s v = true) := by
  refine .bind (literal_yields hw hu) fun x w₁ hl₁ hx => ?_
  refine .bind (literal_yields hl₁.after hv) fun y w₂ hl₂ hy => ?_
  exact exor_yields hl₂.after (hl₂.denotes hx) hy

/-- Note each function, and answer with the literal of the next variable. -/
def answerInTurn (t : Ref) : StateT (List Ref) BddM Ref := do
  modify (t :: ·)
  literal (← get).length

theorem accords_answerInTurn : Accords False answerInTurn fun _ _ => True where
  call w t st hw _ _ := by
    refine .bind (literal_yields hw (Nat.succ_pos st.length)) fun r w' hl hr => ?_
    exact Runs.pure hl.after ⟨trivial, hr.has⟩
  state _ _ _ _ _ := trivial

/-- The variable 2 or its negation remains of an exclusive disjunction, and the answer to each of
them is about a variable that has been decided or not. -/
theorem replaceBelow_of_wellFormed_literals : ∃ m f w ts r log w', Manager.new 0 1 1 = .ok m ∧
    (do exor (← literal 1) (← literal 2)) ⟨m, []⟩ = .ok f w ∧
    w.current.cofactorsBelow f 2 = .ok ts ∧
    replaceBelow f 2 answerInTurn [] w = .ok (r, log) w' ∧ log = ts.reverse ∧ ts.length = 2 ∧
    ∀ s : Assignment, ∃ t q b, w.current.Remains 2 f s t ∧
      w'.current.evaluate q (fun v => .ok (s v)) = .ok b ∧
      w'.current.evaluate r (fun v => .ok (s v)) = .ok b := by
  have hruns : ∃ m, Manager.new 0 1 1 = .ok m ∧ ∃ f w,
      (do exor (← literal 1) (← literal 2)) ⟨m, []⟩ = .ok f w ∧
      ∃ ts, w.current.cofactorsBelow f 2 = .ok ts ∧
      ∃ a w', replaceBelow f 2 answerInTurn [] w = .ok a w' ∧ a.2 = ts.reverse ∧ ts.length = 2 := by
    decide +kernel
  obtain ⟨m, hm, f, w, hf, ts, hts, ⟨r, log⟩, w', hrun, hlog, hlength⟩ := hruns
  obtain ⟨hl, hr⟩ :=
    Runs.of_ok (exor_literals_yields (wellFormed_new hm) (by decide) (by decide)) hf
  obtain ⟨_, -, -, hcalls⟩ :=
    replaceBelow_of_wellFormed hl.after hr.has 2 [] accords_answerInTurn trivial
  obtain ⟨-, hruns⟩ := Runs.of_ok hcalls.runs hrun
  obtain ⟨calls, -, -, hevaluates⟩ := hruns
  refine ⟨m, f, w, ts, r, log, w', hm, hf, hts, hrun, hlog, hlength, fun s => ?_⟩
  obtain ⟨t, q, b, -, ht, hq, hr⟩ := hevaluates s
  exact ⟨t, q, b, ht, hq, hr⟩

end Bdd

end SymbolicAutomata
