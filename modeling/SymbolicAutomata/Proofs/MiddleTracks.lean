import SymbolicAutomata.Proofs.RegularRelations
/-!
# Composition over a middle track

A composition moves the track at the position and the source of the map onto one middle track, joins
the two automata and leaves the middle track out. It puts some word on the middle track: one
relation reads it on the track and the other on its source. Bits that lie on the middle track by
chance are overwritten with it. The middle track stands above the tracks, so nothing is lost of
automata whose edges depend on bits of their tracks alone.
-/
namespace SymbolicAutomata

open Manager Bdd Layout

namespace RegularRelation

variable {w w' : Workspace} {m : Manager} {r map c : RegularRelation} {a : SymbolicNfa}
  {track source target middle : Domain} {u v : Word} {ws : List (List Nat)} {xs : List Nat}
  {pos n : Nat}

/-- The map is binary and as wide as the track at the position. -/
structure Linkable (r : RegularRelation) (pos : Nat) (map : RegularRelation)
    (track source target : Domain) : Prop where
  position : r.tracks[pos]? = some track
  pair : map.tracks = [source, target]
  sourceLen : source.len = track.len
  targetLen : target.len = track.len

/-- The relations meet on a middle track, which stands above the tracks of both. -/
structure MeetsOn (r : RegularRelation) (pos : Nat) (map : RegularRelation)
    (track source target middle : Domain) : Prop
    extends r.Linkable pos map track source target where
  base : topOf (r.tracks ++ map.tracks) = .ok middle.base
  middleLen : middle.len = track.len

/-- The alphabet has room for a middle track, and the product of the automata has numbers for its
states. -/
structure Composable (r : RegularRelation) (pos : Nat) (map : RegularRelation)
    (track source target : Domain) : Prop extends r.Linkable pos map track source target where
  room : EndBy (maxSymbolBits + 1 - track.len) (r.tracks ++ map.tracks)
  joinable : r.automaton.Joinable map.automaton

namespace Linkable

theorem tracks_eq {track' source' target' : Domain}
    (h : r.Linkable pos map track' source' target') (hposition : r.tracks[pos]? = some track)
    (hpair : map.tracks = [source, target]) :
    track' = track ∧ source' = source ∧ target' = target := by
  have hposition' := h.position
  have hpair' := h.pair
  rw [hposition] at hposition'
  rw [hpair] at hpair'
  simp_all

theorem mem (h : r.Linkable pos map track source target) : track ∈ r.tracks :=
  List.mem_of_getElem? h.position

theorem pos_of_room (h : r.Linkable pos map track source target)
    (hroom : EndBy (maxSymbolBits + 1 - track.len) (r.tracks ++ map.tracks)) :
    1 ≤ maxSymbolBits + 1 - track.len := by
  have hend := hroom track (List.mem_append_left _ h.mem)
  have hbase := track.base_ne_zero
  omega

end Linkable

namespace MeetsOn

theorem above (h : r.MeetsOn pos map track source target middle) :
    EndBy middle.base (r.tracks ++ map.tracks) := (topOf_ok h.base).2.1

theorem apart (h : r.MeetsOn pos map track source target middle) {d : Domain}
    (hd : d ∈ r.tracks ++ map.tracks) : d.Apart middle := Domain.apart_of_le (h.above d hd)

theorem track_apart (h : r.MeetsOn pos map track source target middle) : track.Apart middle :=
  h.apart (List.mem_append_left _ h.mem)

theorem middle_eq {middle' : Domain} (h : r.MeetsOn pos map track source target middle)
    (h' : r.MeetsOn pos map track source target middle') : middle = middle' := by
  obtain ⟨base, len, hbase⟩ := middle
  obtain ⟨base', len', hbase'⟩ := middle'
  obtain rfl : base = base' := Except.ok.inj (h.base.symm.trans h'.base)
  obtain rfl : len = len' := h.middleLen.trans h'.middleLen.symm
  rfl

theorem zip_set (h : r.MeetsOn pos map track source target middle) :
    (track, middle) ∈ r.tracks.zip (r.tracks.set pos middle) ∧
      ∀ p ∈ r.tracks.zip (r.tracks.set pos middle), p = (track, middle) ∨ p.1 = p.2 := by
  obtain ⟨hpos, hget⟩ := List.getElem?_eq_some_iff.1 h.position
  constructor
  · refine List.mem_of_getElem? (i := pos) ?_
    rw [List.getElem?_zip_eq_some]
    exact ⟨h.position, List.getElem?_set_self hpos⟩
  · intro p hp
    obtain ⟨i, hi⟩ := List.mem_iff_getElem?.1 hp
    obtain ⟨h1, h2⟩ := List.getElem?_zip_eq_some.1 hi
    by_cases hip : pos = i
    · subst hip
      rw [List.getElem?_set_self hpos] at h2
      rw [h.position] at h1
      exact .inl (Prod.ext (Option.some.inj h1).symm (Option.some.inj h2).symm)
    · rw [List.getElem?_set_ne hip, h1] at h2
      exact .inr (Option.some.inj h2)

/-- Where the composition is possible, the middle track has its bits in the alphabet. -/
theorem fits (h : r.MeetsOn pos map track source target middle)
    (hroom : EndBy (maxSymbolBits + 1 - track.len) (r.tracks ++ map.tracks)) :
    middle.base + middle.len ≤ maxSymbolBits + 1 := by
  have hpos := h.pos_of_room hroom
  have hle := (topOf_ok h.base).2.2 _ hpos hroom
  have hlen := h.middleLen
  omega

theorem movable (h : r.MeetsOn pos map track source target middle)
    (hapart : r.tracks.Pairwise Domain.Apart)
    (hroom : EndBy (maxSymbolBits + 1 - track.len) (r.tracks ++ map.tracks)) :
    r.Movable (r.tracks.set pos middle) where
  widths := by
    refine List.forall₂_iff_zip.2 ⟨(List.length_set ..).symm, fun {d e} hp => ?_⟩
    rcases h.zip_set.2 (d, e) hp with heq | heq
    · obtain ⟨rfl, rfl⟩ := Prod.ext_iff.1 heq
      exact h.middleLen.symm
    · exact congrArg Domain.len heq
  sources := fun d hd => hroom.mono (Nat.sub_le ..) d (List.mem_append_left _ hd)
  targets := by
    intro d hd
    rcases List.mem_or_eq_of_mem_set hd with hd | rfl
    · exact hroom.mono (Nat.sub_le ..) d (List.mem_append_left _ hd)
    · exact h.fits hroom
  apart := Domain.pairwise_set hapart fun j d _ hd =>
    h.apart (List.mem_append_left _ (List.mem_of_getElem? hd))

theorem movable_map (h : r.MeetsOn pos map track source target middle)
    (hroom : EndBy (maxSymbolBits + 1 - track.len) (r.tracks ++ map.tracks)) :
    map.Movable [middle, track] where
  widths := by
    rw [SameWidths, h.pair]
    exact .cons (h.sourceLen.trans h.middleLen.symm) (.cons h.targetLen .nil)
  sources := fun d hd => hroom.mono (Nat.sub_le ..) d (List.mem_append_right _ hd)
  targets := List.forall_mem_cons.2 ⟨h.fits hroom, List.forall_mem_singleton.2
    (hroom.mono (Nat.sub_le ..) track (List.mem_append_left _ h.mem))⟩
  apart := List.pairwise_pair.2 h.track_apart.symm

/-- Edges that depend on bits below the end of some track do not depend on the middle track. -/
theorem misses (h : r.MeetsOn pos map track source target middle)
    (ha : ∀ bit, a.DependsOn m bit → ∃ d ∈ r.tracks ++ map.tracks, bit < d.base + d.len) :
    a.Misses m middle := by
  rintro bit hbit ⟨hle, -⟩
  obtain ⟨d, hd, hlt⟩ := ha bit hbit
  have := h.above d hd
  omega

end MeetsOn

/-- Some word put on the middle track is read on the track and on the source of the map. -/
def Bridges (r map : RegularRelation) (m : Manager) (track source target middle : Domain)
    (u : Word) : Prop :=
  ∃ xs : List Nat, xs.length = u.length ∧ (∀ x ∈ xs, x < 2 ^ middle.len) ∧
    r.automaton.Accepts m ((u.put middle xs).put track xs) ∧
    map.automaton.Accepts m (((u.put middle xs).put target (u.on track)).put source xs)

/-- Some word is read on the track and on the source of the map. -/
def Links (r map : RegularRelation) (m : Manager) (track source target : Domain) (u : Word) :
    Prop :=
  ∃ xs : List Nat, xs.length = u.length ∧ (∀ x ∈ xs, x < 2 ^ track.len) ∧
    r.automaton.Accepts m (u.put track xs) ∧
    map.automaton.Accepts m ((u.put target (u.on track)).put source xs)

/-- Where no edge depends on the middle track, it does not matter what is put there. -/
theorem bridges_iff_links (hr : r.automaton.WellFormed m) (hs : map.automaton.WellFormed m)
    (hm : m.Canonical) (hlen : middle.len = track.len) (hleft : r.automaton.Misses m middle)
    (hright : map.automaton.Misses m middle) :
    r.Bridges map m track source target middle u ↔ r.Links map m track source target u := by
  unfold Bridges Links
  rw [hlen]
  refine exists_congr fun xs => and_congr_right fun hxs => and_congr_right fun _ => ?_
  have hput := Word.agreeOff_put (d := middle) hxs
  exact and_congr (hleft.accepts_congr hr hm (Word.forall₂_put hput)).symm
    (hright.accepts_congr hs hm (Word.forall₂_put (Word.forall₂_put hput))).symm

def composeOver (r : RegularRelation) (pos : Nat) (map : RegularRelation)
    (track middle : Domain) : BddM RegularRelation := do
  let left ← r.withTracks (r.tracks.set pos middle)
  let right ← Bdd.within map.automaton.manager (map.withTracks [middle, track])
  let joined ← left.automaton.inter right.automaton
  new r.tracks (← joined.project middle)

theorem track_eq_ok_iff : r.track pos = .ok track ↔ r.tracks[pos]? = some track := by
  unfold RegularRelation.track
  cases r.tracks[pos]? <;> simp

section Composition

variable (hw : w.current.WellFormed) (hr : r.automaton.WellFormed w.current)
  (hs : map.automaton.WellFormed w.current) (hapart : r.tracks.Pairwise Domain.Apart)
  (hapart' : map.tracks.Pairwise Domain.Apart)

include hw hr hs hapart hapart'

theorem composeOver_runs {p : Prop} (h : r.MeetsOn pos map track source target middle)
    (hp : ¬ r.Composable pos map track source target → p) :
    Runs p w (r.composeOver pos map track middle) fun c m => c.tracks = r.tracks ∧
      ∀ u, c.automaton.Accepts m u ↔ r.Bridges map w.current track source target middle u := by
  apply Runs.bind (withTracks_runs hw hr hapart fun hnot => hp fun hc =>
    hnot (h.movable hapart hc.room))
  rintro left w1 hl1 ⟨-, hcount₁, -, hwell₁, -, names₁, hroutes₁, hleft⟩
  have hs₁ := hs.later hl1
  apply Runs.bind (Runs.within hs₁.home
    (withTracks_runs hl1.after hs₁ hapart' fun hnot => hp fun hc => hnot (h.movable_map hc.room)))
  rintro right w2 hl2 ⟨-, hcount₂, -, hwell₂, -, names₂, hroutes₂, hright⟩
  have hjoinable : ¬ left.automaton.Joinable right.automaton → p := fun hnot => hp fun hc => by
    rw [SymbolicNfa.Joinable, hcount₁, hcount₂] at hnot
    exact hnot hc.joinable
  apply Runs.bind (Runs.mono_left (SymbolicNfa.combine_monotone_yieldsIff hl2.after
    (hwell₁.later hl2) hwell₂ (f := fun x y => x && y) rfl) hjoinable)
  rintro joined w3 hl3 ⟨-, hwell₃, hjoined⟩
  apply Runs.bind ((SymbolicNfa.project_accepts hl3.after hwell₃).mono_left
    fun hlarge => hp fun hc => absurd (h.fits hc.room) (by omega))
  rintro projected w4 hl4 ⟨-, hwell₄, hprojected⟩
  apply (new_runs hl4.after fun hnot => hp fun hc =>
    hnot ⟨hapart, (h.movable hapart hc.room).sources⟩).imp
  rintro t w5 hl5 rfl
  refine ⟨rfl, fun u => ?_⟩
  rw [h.pair] at hroutes₂
  have hread (v : Word) : joined.Accepts w3.current v ↔
      r.automaton.Accepts w.current (v.put track (v.on middle)) ∧
      map.automaton.Accepts w.current ((v.put target (v.on track)).put source (v.on middle)) := by
    rw [hjoined]
    simp only [Bool.and_eq_true, decide_eq_true_iff]
    rw [hwell₁.accepts_later hl2, hleft, hright, hs.accepts_later hl1,
      Word.renamed_eq_put hroutes₁ h.zip_set.1 h.zip_set.2, Word.renamed_eq_put_put hroutes₂]
  rw [hwell₄.accepts_later hl5, hprojected]
  simp only [hread, Word.exists_agreeOff_iff]
  refine exists_congr fun xs => and_congr_right fun hlen => and_congr_right fun hxs => ?_
  rw [Word.on_put hlen hxs, Word.on_put_of_apart hlen h.track_apart]

/-- A composition runs over a middle track, if there is room for one. -/
theorem compose_runs :
    Runs (∀ track source target, ¬ r.Composable pos map track source target) w (r.compose pos map)
      fun c m => c.tracks = r.tracks ∧ ∃ track source target middle,
        r.MeetsOn pos map track source target middle ∧ ∀ u, c.automaton.Accepts m u ↔
          r.Bridges map w.current track source target middle u := by
  unfold compose
  apply Runs.check hw fun hbinary track source target hc => hbinary (by rw [arity, hc.pair]; rfl)
  intro hbinary
  obtain ⟨source, target, hpair⟩ := List.length_eq_two.1 (not_not.1 hbinary)
  apply Runs.lift_cases hw
  · intro e he track source target hc
    rw [RegularRelation.track, hc.position] at he
    cases he
  intro track htrack
  have hposition : r.tracks[pos]? = some track := track_eq_ok_iff.1 htrack
  apply Runs.lift_bind (track_eq_ok_iff.2 (by rw [hpair]; rfl) : map.track 0 = .ok source)
  apply Runs.lift_bind (track_eq_ok_iff.2 (by rw [hpair]; rfl) : map.track 1 = .ok target)
  apply Runs.check hw fun hlen _ _ _ hc => hlen (by
    obtain ⟨rfl, rfl, rfl⟩ := hc.tracks_eq hposition hpair
    exact hc.sourceLen)
  intro hsource
  apply Runs.check hw fun hlen _ _ _ hc => hlen (by
    obtain ⟨rfl, rfl, rfl⟩ := hc.tracks_eq hposition hpair
    exact hc.targetLen)
  intro htarget
  apply Runs.lift_cases hw
  · intro e he _ _ _ hc
    have hpos := hc.pos_of_room hc.room
    have hlt : maxSymbolBits + 1 < 2 ^ 32 := by decide
    obtain ⟨top, htop, -⟩ := topOf_spec hc.room (Nat.lt_of_le_of_lt (Nat.sub_le ..) hlt) hpos
    cases he.symm.trans htop
  intro top htop
  have hpos : top ≠ 0 := Nat.one_le_iff_ne_zero.1 (topOf_ok htop).1
  apply Runs.lift_bind (dif_pos hpos : Domain.new top track.len = .ok ⟨top, track.len, hpos⟩)
  have hmeets : r.MeetsOn pos map track source target ⟨top, track.len, hpos⟩ :=
    ⟨⟨hposition, hpair, not_not.1 hsource, not_not.1 htarget⟩, htop, rfl⟩
  apply (composeOver_runs hw hr hs hapart hapart' hmeets fun hnot _ _ _ hc => hnot (by
    obtain ⟨rfl, rfl, rfl⟩ := hc.tracks_eq hposition hpair
    exact hc)).imp
  rintro c w1 hl1 ⟨htracks, haccepts⟩
  exact ⟨htracks, track, source, target, _, hmeets, haccepts⟩

end Composition

theorem bitPair_composable {i j k l : Nat} {hi : i ≠ 0} {hj : j ≠ 0} {hk : k ≠ 0} {hl : l ≠ 0}
    (hcount : a.stateCount = 2) (hin : i < maxSymbolBits) (hjn : j < maxSymbolBits)
    (hkn : k < maxSymbolBits) (hln : l < maxSymbolBits) :
    (bitPair i j a hi hj).Composable 0 (bitPair k l a hk hl) (bitTrack i hi) (bitTrack k hk)
      (bitTrack l hl) where
  position := rfl
  pair := rfl
  sourceLen := rfl
  targetLen := rfl
  room := List.forall_mem_append.2 ⟨bitPair_ends hin hjn, bitPair_ends hkn hln⟩
  joinable := by
    change a.Joinable a
    rw [SymbolicNfa.Joinable, hcount]
    decide

/-- The middle track is above the declared tracks, whatever the edges depend on. What they demand
off the tracks survives a composition if they miss the middle track; if not, it is overwritten. -/
theorem compose_of_new (hw : w.current.WellFormed) (hr : r.automaton.WellFormed w.current)
    (hs : map.automaton.WellFormed w.current) (hnew : new r.tracks r.automaton = .ok r)
    (hnew' : new map.tracks map.automaton = .ok map) (hrun : r.compose pos map w = .ok c w') :
    c.tracks = r.tracks ∧ ∃ track source target middle,
      r.MeetsOn pos map track source target middle ∧ EndBy middle.base (r.tracks ++ map.tracks) ∧
      (∀ u, c.automaton.Accepts w'.current u ↔
        r.Bridges map w.current track source target middle u) ∧
      (∀ a ∈ [r.automaton, map.automaton], (∀ bit, a.DependsOn w.current bit →
        ∃ d ∈ r.tracks ++ map.tracks, bit < d.base + d.len) → a.Misses w.current middle) ∧
      (r.automaton.Misses w.current middle → map.automaton.Misses w.current middle →
        ∀ u, c.automaton.Accepts w'.current u ↔ r.Links map w.current track source target u) := by
  obtain ⟨-, htracks, track, source, target, middle, hmeets, haccepts⟩ :=
    (compose_runs hw hr hs (new_ok hnew).1 (new_ok hnew').1).of_ok hrun
  refine ⟨htracks, track, source, target, middle, hmeets, hmeets.above, haccepts,
    fun a _ ha => hmeets.misses ha, fun hleft hright u => ?_⟩
  rw [haccepts, bridges_iff_links hr hs hw.canonical hmeets.middleLen hleft hright]

/-- Edges that depend on a bit below the tracks still do after the composition. -/
theorem compose_of_new_ofBit : ∃ m a w c w', Manager.new 0 1 1 = .ok m ∧
    SymbolicNfa.ofBit 1 ⟨m, []⟩ = .ok a w ∧
    (bitPair 2 3 a).compose 0 (bitPair 2 3 a) w = .ok c w' ∧
    c.automaton.Accepts w'.current [fun _ => true] ∧
    ¬ c.automaton.Accepts w'.current [fun _ => false] := by
  obtain ⟨m, hm⟩ : ∃ m, Manager.new 0 1 1 = .ok m := ⟨_, rfl⟩
  obtain ⟨a, w, ha, hl, hcount, hwell, haccepts, hdepends⟩ := yields_iff.1
    (SymbolicNfa.ofBit_yields 1 (w := ⟨m, []⟩) (Manager.wellFormed_new hm) (by decide) (by decide))
  have hpair : (bitPair 2 3 a).WellFormed w.current :=
    bitPair_wellFormed hwell (by decide) (by decide) (by decide)
  have hnew : new (bitPair 2 3 a).tracks a = .ok (bitPair 2 3 a) := new_eq hpair.apart hpair.ends
  have hdef : (bitPair 2 3 a).Composable 0 (bitPair 2 3 a) (bitTrack 2) (bitTrack 2) (bitTrack 3) :=
    bitPair_composable hcount (by decide) (by decide) (by decide) (by decide)
  obtain ⟨c, w', hrun, -⟩ := yields_iff.1
    ((compose_runs hl.after hwell hwell hpair.apart hpair.apart).yields fun hnot => hnot _ _ _ hdef)
  obtain ⟨-, track, source, target, middle, hmeets, -, -, hmisses, hlinks⟩ :=
    compose_of_new hl.after hwell hwell hnew hnew hrun
  obtain ⟨rfl, rfl, rfl⟩ := hmeets.tracks_eq hdef.position hdef.pair
  have hmiss : a.Misses w.current middle := hmisses a List.mem_cons_self fun bit hbit =>
    ⟨bitTrack 2, by simp [bitPair], by rw [(hdepends bit).1 hbit]; decide⟩
  refine ⟨m, a, w, c, w', hm, ha, hrun, (hlinks hmiss hmiss _).2 ?_, fun hnot => ?_⟩
  · exact ⟨[0], rfl, by decide, (haccepts _).2 ⟨_, rfl, rfl⟩, (haccepts _).2 ⟨_, rfl, rfl⟩⟩
  · obtain ⟨xs, hlen, -, hleft, -⟩ := (hlinks hmiss hmiss _).1 hnot
    obtain ⟨k, rfl⟩ := List.length_eq_one_iff.1 hlen
    obtain ⟨x, hx, hbit⟩ := (haccepts _).1 hleft
    obtain rfl := (List.cons.inj hx).1
    cases hbit

/-- Over the first two bits the middle track is the third bit. All words of both relations have it
set, yet the composition has one that does not. -/
theorem overwritten_ofBit : ∃ m a w c w', Manager.new 0 1 1 = .ok m ∧
    SymbolicNfa.ofBit 3 ⟨m, []⟩ = .ok a w ∧
    new [bitTrack 1, bitTrack 2] a = .ok (bitPair 1 2 a) ∧
    (bitPair 1 2 a).compose 0 (bitPair 1 2 a) w = .ok c w' ∧
    (bitPair 1 2 a).MeetsOn 0 (bitPair 1 2 a) (bitTrack 1) (bitTrack 1) (bitTrack 2) (bitTrack 3) ∧
    ¬ a.Misses w.current (bitTrack 3) ∧
    (∀ u, a.Accepts w.current u → ∃ x : Letter, u = [x] ∧ x.bits 3 = true) ∧
    c.automaton.Accepts w'.current [fun _ => false] := by
  obtain ⟨m, hm⟩ : ∃ m, Manager.new 0 1 1 = .ok m := ⟨_, rfl⟩
  obtain ⟨a, w, ha, hl, hcount, hwell, haccepts, hdepends⟩ := yields_iff.1
    (SymbolicNfa.ofBit_yields 3 (w := ⟨m, []⟩) (Manager.wellFormed_new hm) (by decide) (by decide))
  have hpair : (bitPair 1 2 a).WellFormed w.current :=
    bitPair_wellFormed hwell (by decide) (by decide) (by decide)
  have hdef : (bitPair 1 2 a).Composable 0 (bitPair 1 2 a) (bitTrack 1) (bitTrack 1) (bitTrack 2) :=
    bitPair_composable hcount (by decide) (by decide) (by decide) (by decide)
  have hmeets : (bitPair 1 2 a).MeetsOn 0 (bitPair 1 2 a) (bitTrack 1) (bitTrack 1) (bitTrack 2)
      (bitTrack 3) := ⟨hdef.toLinkable, rfl, rfl⟩
  obtain ⟨c, w', hrun, -, -, track, source, target, middle, hmeets', hbridges⟩ := yields_iff.1
    ((compose_runs hl.after hwell hwell hpair.apart hpair.apart).yields fun hnot => hnot _ _ _ hdef)
  obtain ⟨rfl, rfl, rfl⟩ := hmeets'.tracks_eq hdef.position hdef.pair
  obtain rfl : middle = bitTrack 3 := hmeets'.middle_eq hmeets
  refine ⟨m, a, w, c, w', hm, ha, new_eq hpair.apart hpair.ends, hrun, hmeets,
    fun hmiss => hmiss 3 ((hdepends 3).2 rfl) (by decide), fun u => (haccepts u).1,
    (hbridges _).2 ?_⟩
  exact ⟨[1], rfl, by decide, (haccepts _).2 ⟨_, rfl, rfl⟩, (haccepts _).2 ⟨_, rfl, rfl⟩⟩

theorem Linkable.tuple_put_put {ys : List Nat} (h : r.Linkable pos map track source target)
    (hapart : map.tracks.Pairwise Domain.Apart) (hxs : xs.length = u.length)
    (hys : ys.length = u.length) (hxlt : ∀ x ∈ xs, x < 2 ^ track.len)
    (hylt : ∀ y ∈ ys, y < 2 ^ track.len) :
    ((u.put target ys).put source xs).tuple map.tracks = [xs, ys] := by
  rw [h.pair] at hapart ⊢
  have hfirst : [source, target][0]? = some source := rfl
  have hsecond : [source, target][1]? = some target := rfl
  rw [Word.tuple_put hapart hfirst (hxs.trans (Word.length_put hys).symm)
      (by rwa [h.sourceLen]), Word.tuple_put hapart hsecond hys (by rwa [h.targetLen])]
  rfl

/-- A linked word carries a tuple whose word at the position the map relates to another one that
fits there. -/
theorem holds_of_links (hw : w.current.WellFormed) (hr : r.WellFormed w.current)
    (hs : map.WellFormed w.current) (hsc : map.Confined w.current)
    (hlink : r.Linkable pos map track source target) (htracks : c.tracks = r.tracks)
    (hc : ∀ u, c.automaton.Accepts m u ↔ r.Links map w.current track source target u) :
    c.Holds m n ws ↔ ∃ x y, ws[pos]? = some y ∧ r.Holds w.current n (ws.set pos x) ∧
      map.Holds w.current n [x, y] := by
  have hlt {v : Word} : ∀ y ∈ v.on track, y < 2 ^ track.len := Word.on_lt
  constructor
  · rintro ⟨u, rfl, haccepts, rfl⟩
    obtain ⟨xs, hlen, hxs, hleft, hright⟩ := (hc u).1 haccepts
    rw [htracks]
    refine ⟨xs, u.on track, Word.getElem?_tuple hlink.position,
      ⟨_, Word.length_put hlen, hleft, Word.tuple_put hr.apart hlink.position hlen hxs⟩,
      _, ?_, hright, hlink.tuple_put_put hs.apart hlen Word.length_on hxs hlt⟩
    exact Word.length_put_put Word.length_on hlen
  · rintro ⟨x, y, hy, ⟨v, rfl, hleft, htuple⟩, v', hlen', hright, htuple'⟩
    have hpos : pos < ws.length := (List.getElem?_eq_some_iff.1 hy).1
    obtain rfl : v.on track = x := by
      have hword := Word.getElem?_tuple (u := v) hlink.position
      rw [htuple, List.getElem?_set_self hpos] at hword
      exact (Option.some.inj hword).symm
    obtain rfl : v'.on target = y := by
      rw [hlink.pair] at htuple'
      exact (List.cons.inj (List.cons.inj htuple').2).1
    have hylen : (v'.on target).length = v.length := Word.length_on.trans hlen'
    have hylt : ∀ y ∈ v'.on target, y < 2 ^ track.len := by
      rw [← hlink.targetLen]
      exact Word.on_lt
    have hlen := Word.length_put (d := track) hylen
    refine ⟨v.put track (v'.on target), hlen,
      (hc _).2 ⟨v.on track, Word.length_on.trans hlen.symm, hlt, ?_, ?_⟩, ?_⟩
    · rwa [Word.put_put hylen, Word.put_on_self]
    · rw [Word.on_put hylen hylt]
      refine (accepts_congr hs.automaton hw.canonical hsc ?_ ?_).2 hright
      · exact (Word.length_put_put (hylen.trans hlen.symm) (Word.length_on.trans hlen.symm)).trans
          (hlen.trans hlen'.symm)
      · rw [hlink.tuple_put_put hs.apart (Word.length_on.trans hlen.symm) (hylen.trans hlen.symm)
          hlt hylt, htuple']
    · rw [htracks, Word.tuple_put hr.apart hlink.position hylen hylt, htuple, List.set_set]
      obtain ⟨hpos, hget⟩ := List.getElem?_eq_some_iff.1 hy
      rw [← hget, List.set_getElem_self]

/-- A composition holds the tuples with a word at the position to which the map relates some word
that the relation holds there. -/
theorem compose_holds (hw : w.current.WellFormed) (hr : r.WellFormed w.current)
    (hs : map.WellFormed w.current) (hrc : r.Confined w.current) (hsc : map.Confined w.current)
    (hc : r.Composable pos map track source target) :
    Yields w (r.compose pos map) fun c m => c.tracks = r.tracks ∧ ∀ n ws, c.Holds m n ws ↔
      ∃ x y, ws[pos]? = some y ∧ r.Holds w.current n (ws.set pos x) ∧
        map.Holds w.current n [x, y] := by
  apply ((compose_runs hw hr.automaton hs.automaton hr.apart hs.apart).yields
    fun hnot => hnot _ _ _ hc).imp
  rintro c w1 hl1 ⟨htracks, track', source', target', middle, hmeets, haccepts⟩
  obtain ⟨rfl, rfl, rfl⟩ := hmeets.tracks_eq hc.position hc.pair
  have hleft : r.automaton.Misses w.current middle := hmeets.misses fun bit hbit => by
    obtain ⟨d, hd, -, hlt⟩ := hrc bit hbit
    exact ⟨d, List.mem_append_left _ hd, hlt⟩
  have hright : map.automaton.Misses w.current middle := hmeets.misses fun bit hbit => by
    obtain ⟨d, hd, -, hlt⟩ := hsc bit hbit
    exact ⟨d, List.mem_append_right _ hd, hlt⟩
  refine ⟨htracks, fun n ws => holds_of_links hw hr hs hsc hmeets.toLinkable htracks fun u => ?_⟩
  rw [haccepts, bridges_iff_links hr.automaton hs.automaton hw.canonical hmeets.middleLen hleft
    hright]

/-- The pairs that begin with 1 are mapped to themselves by the map of all words to 1, which is on
the same tracks the other way round. -/
theorem compose_holds_ofBit : ∃ m a w c w', Manager.new 0 1 1 = .ok m ∧
    SymbolicNfa.ofBit 1 ⟨m, []⟩ = .ok a w ∧
    (bitPair 1 2 a).compose 0 (bitPair 2 1 a) w = .ok c w' ∧
    c.Holds w'.current 1 [[1], [0]] ∧ ¬ c.Holds w'.current 1 [[0], [0]] := by
  obtain ⟨m, hm⟩ : ∃ m, Manager.new 0 1 1 = .ok m := ⟨_, rfl⟩
  obtain ⟨a, w, ha, hl, hcount, hwell, haccepts, hdepends⟩ := yields_iff.1
    (SymbolicNfa.ofBit_yields 1 (w := ⟨m, []⟩) (Manager.wellFormed_new hm) (by decide) (by decide))
  have hfirst : (bitPair 1 2 a).WellFormed w.current :=
    bitPair_wellFormed hwell (by decide) (by decide) (by decide)
  have hsecond : (bitPair 2 1 a).WellFormed w.current :=
    bitPair_wellFormed hwell (by decide) (by decide) (by decide)
  have hdef : (bitPair 1 2 a).Composable 0 (bitPair 2 1 a) (bitTrack 1) (bitTrack 2) (bitTrack 1) :=
    bitPair_composable hcount (by decide) (by decide) (by decide) (by decide)
  obtain ⟨c, w', hrun, -, -, hholds⟩ := yields_iff.1 (compose_holds hl.after hfirst hsecond
    (confined_of_mem (by decide) List.mem_cons_self hdepends)
    (confined_of_mem (by decide) (List.mem_cons_of_mem _ List.mem_cons_self) hdepends) hdef)
  refine ⟨m, a, w, c, w', hm, ha, hrun, (hholds _ _).2 ?_, fun hnot => ?_⟩
  · exact ⟨[1], [1], rfl, (bitPair_holds_iff haccepts).2 (by decide),
      (bitPair_crossed_holds_iff haccepts).2 (by decide)⟩
  · obtain ⟨x, y, hy, -, hmap⟩ := (hholds _ _).1 hnot
    obtain rfl : [0] = y := Option.some.inj hy
    obtain ⟨z, hz, htuple⟩ := (holds_of_letters haccepts).1 hmap
    have hzero : (bitTrack 1).read z.bits = 0 :=
      (List.cons.inj (List.cons.inj (List.cons.inj htuple).2).1).1
    rw [read_bitTrack, hz] at hzero
    cases hzero

end RegularRelation

end SymbolicAutomata
