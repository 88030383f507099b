import Mathlib.Data.Multiset.AddSub
import ProgPara.Matching.History

/-!
# Requests that name their source

When every request names its source and waits until it is served, arrivals
commute with requests and with the arrivals of other sources.  What is matched
with what is then the same for all the schedules in which the requests are
posted in one order and each source's messages arrive in one order:
`run_eq_of_sameOrders`.
-/

namespace ProgPara.Matching

open Function

variable {R F σ : Type*}

inductive Event (R F σ : Type*) where
  | arrive (p : σ) (f : F)
  | post (order : List σ) (r : R)

def Event.kind : Event R F σ → Option σ
  | .arrive p _ => some p
  | .post _ _ => none

@[simp] theorem Event.kind_arrive (p : σ) (f : F) :
    (Event.arrive p f : Event R F σ).kind = some p := rfl

@[simp] theorem Event.kind_post (order : List σ) (r : R) :
    (Event.post order r : Event R F σ).kind = none := rfl

def Event.Named (ru : Rules R F σ) : Event R F σ → Prop
  | .arrive _ _ => True
  | .post order r => ru.waits r ∧ ∃ p ∈ order, ru.peer r = some p

variable [DecidableEq σ]

/-- A board with the pairs matched so far, whatever the order they were in. -/
structure Tally (R F σ : Type*) where
  board : Board R F σ
  pairs : Multiset (Pair R F σ)

namespace Tally

variable (ru : Rules R F σ)

def empty : Tally R F σ := ⟨Board.empty, 0⟩

def add (t : Tally R F σ) (result : Board R F σ × List (Pair R F σ)) : Tally R F σ :=
  ⟨result.1, t.pairs + result.2⟩

def step (t : Tally R F σ) : Event R F σ → Tally R F σ
  | .arrive p f => t.add (t.board.arrive ru p f)
  | .post order r => t.add (t.board.post ru order r)

def Named (t : Tally R F σ) : Prop := ∀ r ∈ t.board.posted, ru.peer r ≠ none

end Tally

variable {ru : Rules R F σ}

namespace Rules

theorem offer_offer {p q : σ} (hpq : p ≠ q) (f g : F) {posted : List R}
    (hnamed : ∀ r ∈ posted, ru.peer r ≠ none) :
    (ru.offer q g (ru.offer p f posted).kept).served = (ru.offer q g posted).served ∧
      (ru.offer q g (ru.offer p f posted).kept).taken = (ru.offer q g posted).taken ∧
      (ru.offer q g (ru.offer p f posted).kept).kept =
        (ru.offer p f (ru.offer q g posted).kept).kept := by
  induction posted with
  | nil => exact ⟨rfl, rfl, rfl⟩
  | cons r rest ih =>
      have hrest := ih fun r' hr' => hnamed r' (List.mem_cons_of_mem _ hr')
      have hone : ¬(ru.admits r p f ∧ ru.admits r q g) := by
        have hr := hnamed r List.mem_cons_self
        simp only [admits, Bool.and_eq_true, Bool.or_eq_true, beq_iff_eq, hr, false_or]
        rintro ⟨⟨hp, -⟩, hq, -⟩
        exact hpq (Option.some_inj.mp (hp.symm.trans hq))
      by_cases hp : ru.admits r p f
      · have hq : ¬ru.admits r q g := fun h => hone ⟨hp, h⟩
        by_cases ht : ru.takes r
        · simp [offer, hp, hq, ht]
        · simp [offer, hp, hq, ht, hrest]
      · by_cases hq : ru.admits r q g
        · by_cases ht : ru.takes r
          · simp [offer, hp, hq, ht]
          · simp [offer, hp, hq, ht, hrest]
        · simp [offer, hp, hq, hrest]

theorem offer_concat (p : σ) (f : F) (posted : List R) (r : R) :
    ru.offer p f (posted ++ [r]) =
      if (ru.offer p f posted).taken then
        ⟨(ru.offer p f posted).served, (ru.offer p f posted).kept ++ [r], true⟩
      else if ru.admits r p f then
        ⟨(ru.offer p f posted).served ++ [r], (ru.offer p f posted).kept, ru.takes r⟩
      else ⟨(ru.offer p f posted).served, (ru.offer p f posted).kept ++ [r], false⟩ := by
  induction posted with
  | nil =>
      by_cases ha : ru.admits r p f
      · by_cases ht : ru.takes r
        · simp [offer, ha, ht]
        · simp [offer, ha, ht]
      · simp [offer, ha]
  | cons x rest ih =>
      by_cases hx : ru.admits x p f
      · by_cases ht : ru.takes x
        · simp [offer, hx, ht]
        · simp only [List.cons_append, offer, hx, ht, ih, if_true, Bool.false_eq_true,
            if_false]
          split_ifs <;> rfl
      · simp only [List.cons_append, offer, hx, ih, Bool.false_eq_true, if_false]
        split_ifs <;> rfl

variable (ru) in
theorem search_named {order : List σ} {r : R} {q : σ} (hq : q ∈ order)
    (hpeer : ru.peer r = some q) (waiting : σ → List F) :
    ru.search order r waiting = ((waiting q).find? (ru.fits r q)).map fun f => (q, f) := by
  unfold search
  have hother : ∀ p, p ≠ q → ¬(ru.peer r = none ∨ ru.peer r = some p) := by
    intro p hp
    rw [hpeer]
    simpa using Ne.symm hp
  induction order with
  | nil => cases hq
  | cons p order ih =>
      rw [List.findSome?_cons]
      by_cases hp : p = q
      · rw [hp, if_pos (.inr hpeer)]
        cases hfind : (waiting q).find? (ru.fits r q) with
        | some f => rfl
        | none =>
            refine List.findSome?_eq_none_iff.mpr ?_
            intro p' _
            by_cases hp' : p' = q
            · rw [hp', if_pos (.inr hpeer), hfind]
              rfl
            · rw [if_neg (hother p' hp')]
      · rw [if_neg (hother p hp)]
        exact ih ((List.mem_cons.mp hq).resolve_left (Ne.symm hp))

end Rules

/-! ## Events of different kinds commute -/

namespace Board

variable {b : Board R F σ}

theorem arrive_arrive (hb : ∀ r ∈ b.posted, ru.peer r ≠ none) {p q : σ} (hpq : p ≠ q)
    (f g : F) :
    ((b.arrive ru p f).1.arrive ru q g).1 = ((b.arrive ru q g).1.arrive ru p f).1 ∧
      ((b.arrive ru p f).2 ++ ((b.arrive ru p f).1.arrive ru q g).2).Perm
        ((b.arrive ru q g).2 ++ ((b.arrive ru q g).1.arrive ru p f).2) := by
  obtain ⟨hserved, htaken, hkept⟩ := Rules.offer_offer hpq f g hb
  obtain ⟨hserved', htaken', -⟩ := Rules.offer_offer (Ne.symm hpq) g f hb
  simp only [arrive, mk.injEq, hserved, htaken, hserved', htaken']
  refine ⟨⟨hkept, ?_⟩, List.perm_append_comm⟩
  split_ifs
  · rfl
  · rfl
  · rfl
  · rw [update_of_ne hpq, update_of_ne (Ne.symm hpq), update_comm hpq]

section Post

variable {order : List σ} {r : R} {q : σ} (hq : q ∈ order) (hpeer : ru.peer r = some q)
include hq hpeer

theorem arrive_post_of_found {u : F} (hfind : (b.waiting q).find? (ru.fits r q) = some u)
    (p : σ) (f : F) :
    ((b.arrive ru p f).1.post ru order r).1 = ((b.post ru order r).1.arrive ru p f).1 ∧
      ((b.arrive ru p f).2 ++ ((b.arrive ru p f).1.post ru order r).2).Perm
        ((b.post ru order r).2 ++ ((b.post ru order r).1.arrive ru p f).2) := by
  have hsearch := fun w => ru.search_named hq hpeer w
  have hu := List.find?_some hfind
  have hmem := List.mem_of_find?_eq_some hfind
  -- the message that arrives lands behind those already there
  have hfind' :
      (update b.waiting p (b.waiting p ++ [f]) q).find? (ru.fits r q) = some u := by
    by_cases hpq : q = p
    · subst hpq
      rw [update_self, List.find?_append, hfind, Option.some_or]
    · rwa [update_of_ne hpq]
  have herase : update (update b.waiting p (b.waiting p ++ [f])) q
        ((update b.waiting p (b.waiting p ++ [f]) q).eraseP (ru.fits r q)) =
      update (update b.waiting q ((b.waiting q).eraseP (ru.fits r q))) p
        (update b.waiting q ((b.waiting q).eraseP (ru.fits r q)) p ++ [f]) := by
    by_cases hpq : q = p
    · subst hpq
      rw [update_self, update_self, update_idem, update_idem,
        List.eraseP_append_left hu _ hmem]
    · rw [update_of_ne hpq, update_of_ne (Ne.symm hpq), update_comm hpq]
  cases htaken : (ru.offer p f b.posted).taken with
  | true =>
      by_cases ht : ru.takes r
      · simp [arrive, post, hsearch, hfind, htaken, ht, List.perm_append_singleton]
      · simp [arrive, post, hsearch, hfind, htaken, ht, List.perm_append_singleton]
  | false =>
      by_cases ht : ru.takes r
      · simp [arrive, post, hsearch, hfind, hfind', htaken, ht, herase,
          List.perm_append_singleton]
      · simp [arrive, post, hsearch, hfind, hfind', htaken, ht,
          List.perm_append_singleton]

/-- A request that finds nothing is the last to be shown what arrives. -/
theorem arrive_post_of_missing (hwaits : ru.waits r)
    (hfind : (b.waiting q).find? (ru.fits r q) = none) (p : σ) (f : F) :
    ((b.arrive ru p f).1.post ru order r).1 = ((b.post ru order r).1.arrive ru p f).1 ∧
      ((b.arrive ru p f).2 ++ ((b.arrive ru p f).1.post ru order r).2).Perm
        ((b.post ru order r).2 ++ ((b.post ru order r).1.arrive ru p f).2) := by
  have hsearch := fun w => ru.search_named hq hpeer w
  have hadm : ru.admits r p f ↔ p = q ∧ ru.fits r q f := by
    simp only [Rules.admits, hpeer, Bool.and_eq_true, Bool.or_eq_true, beq_iff_eq,
      reduceCtorEq, false_or, Option.some_inj, eq_comm (a := q)]
    exact and_congr_right fun h => by rw [h]
  simp only [arrive, post, hsearch, hfind, Option.map_none, hwaits, if_true,
    Rules.offer_concat]
  cases htaken : (ru.offer p f b.posted).taken with
  | true => simp [hfind]
  | false =>
      by_cases ha : ru.admits r p f
      · obtain ⟨rfl, hfits⟩ := hadm.mp ha
        have hfind' : (b.waiting p ++ [f]).find? (ru.fits r p) = some f := by
          simp [List.find?_append, hfind, hfits]
        have herase : (b.waiting p ++ [f]).eraseP (ru.fits r p) = b.waiting p := by
          rw [List.eraseP_append_right _ (by simpa using List.find?_eq_none.mp hfind),
            List.eraseP_cons_of_pos hfits, List.append_nil]
        simp only [Bool.false_eq_true, if_false, ha, if_true, update_self, hfind',
          Option.map_some, herase, update_idem, update_eq_self]
        split_ifs
        · simp
        · simp
      · have hfind' :
            (update b.waiting p (b.waiting p ++ [f]) q).find? (ru.fits r q) = none := by
          by_cases hpq : q = p
          · subst hpq
            have hfits : ¬ru.fits r q f := fun h => ha (hadm.mpr ⟨rfl, h⟩)
            simp [List.find?_append, hfind, hfits]
          · rwa [update_of_ne hpq]
        simp [ha, hfind']

theorem arrive_post (hwaits : ru.waits r) (p : σ) (f : F) :
    ((b.arrive ru p f).1.post ru order r).1 = ((b.post ru order r).1.arrive ru p f).1 ∧
      ((b.arrive ru p f).2 ++ ((b.arrive ru p f).1.post ru order r).2).Perm
        ((b.post ru order r).2 ++ ((b.post ru order r).1.arrive ru p f).2) := by
  cases hfind : (b.waiting q).find? (ru.fits r q) with
  | some u => exact arrive_post_of_found hq hpeer hfind p f
  | none => exact arrive_post_of_missing hq hpeer hwaits hfind p f

end Post

end Board

namespace Tally

variable {t : Tally R F σ}

omit [DecidableEq σ] in
theorem add_add_eq {x y x' y' : Board R F σ × List (Pair R F σ)} (hboard : y.1 = y'.1)
    (hout : (x.2 ++ y.2).Perm (x'.2 ++ y'.2)) : (t.add x).add y = (t.add x').add y' := by
  have hpairs := congrArg (t.pairs + ·) (Multiset.coe_eq_coe.mpr hout)
  simp only [← Multiset.coe_add, ← Multiset.add_assoc] at hpairs
  simp only [add, hboard, hpairs]

theorem Named.step (ht : t.Named ru) {e : Event R F σ} (he : e.Named ru) :
    (t.step ru e).Named ru := by
  cases e with
  | arrive p f => exact fun r hr => ht r (Rules.offer_kept_sublist.subset hr)
  | post order r =>
      obtain ⟨-, q, -, hpeer⟩ := he
      intro r' hr'
      simp only [Tally.step, add, Board.post] at hr'
      split at hr'
      · split at hr'
        · rcases List.mem_append.mp hr' with h | h
          · exact ht r' h
          · rw [List.mem_singleton.mp h, hpeer]
            simp
        · exact ht r' hr'
      · split at hr'
        · exact ht r' hr'
        · exact ht r' hr'

theorem step_comm (ht : t.Named ru) {e₁ e₂ : Event R F σ} (he₁ : e₁.Named ru)
    (he₂ : e₂.Named ru) (hkind : e₁.kind ≠ e₂.kind) :
    (t.step ru e₁).step ru e₂ = (t.step ru e₂).step ru e₁ := by
  cases e₁ with
  | arrive p f =>
      cases e₂ with
      | arrive q g =>
          have hpq : p ≠ q := fun h => hkind (congrArg some h)
          obtain ⟨hboard, hout⟩ := Board.arrive_arrive ht hpq f g
          exact add_add_eq hboard hout
      | post order r =>
          obtain ⟨hwaits, q, hq, hpeer⟩ := he₂
          obtain ⟨hboard, hout⟩ := Board.arrive_post (b := t.board) hq hpeer hwaits p f
          exact add_add_eq hboard hout
  | post order r =>
      cases e₂ with
      | arrive p f =>
          obtain ⟨hwaits, q, hq, hpeer⟩ := he₁
          obtain ⟨hboard, hout⟩ := Board.arrive_post (b := t.board) hq hpeer hwaits p f
          exact add_add_eq hboard.symm hout.symm
      | post => exact absurd rfl hkind

/-- What is matched with what, and what is left, does not depend on how the
requests and the arrivals of the different sources are interleaved. -/
theorem run_eq_of_sameOrders {es₁ es₂ : List (Event R F σ)}
    (h : SameOrders Event.kind es₁ es₂) (h₁ : ∀ e ∈ es₁, e.Named ru)
    (h₂ : ∀ e ∈ es₂, e.Named ru) :
    es₁.foldl (step ru) empty = es₂.foldl (step ru) empty := by
  have hinv : ∀ (t : Tally R F σ) (e : Event R F σ), e.Named ru → t.Named ru →
      (t.step ru e).Named ru := fun t e he ht => ht.step he
  have hcomm : ∀ (t : Tally R F σ) (e₁ e₂ : Event R F σ), e₁.Named ru → e₂.Named ru →
      e₁.kind ≠ e₂.kind → t.Named ru →
      (t.step ru e₁).step ru e₂ = (t.step ru e₂).step ru e₁ :=
    fun t e₁ e₂ he₁ he₂ hkind ht => step_comm ht he₁ he₂ hkind
  have hempty : (empty : Tally R F σ).Named ru := fun r hr => by cases hr
  exact foldl_eq_of_sameOrders hinv hcomm hempty h₁ h₂ h

end Tally

/-! ## Histories of named requests -/

namespace History

variable [DecidableEq R] {h h₁ h₂ : History R F σ}

def call (ru : Rules R F σ) (r : R) : Event R F σ := .post (ru.peer r).toList r

omit [DecidableEq R] in
theorem search_call {b : Board R F σ} {order : List σ} {r : R}
    (hcovers : b.Covers ru order r) (hnamed : ∃ q, ru.peer r = some q) :
    ru.search order r b.waiting = ru.search (ru.peer r).toList r b.waiting := by
  obtain ⟨q, hq⟩ := hnamed
  rw [hq, Option.toList_some, ru.search_named (List.mem_singleton_self q) hq]
  by_cases hmem : q ∈ order
  · exact ru.search_named hmem hq b.waiting
  · have hnone : (b.waiting q).find? (ru.fits r q) = none := by
      refine List.find?_eq_none.mpr fun f hf hfits => hmem ?_
      exact hcovers q f hf (by simp [Rules.admits, hq, hfits])
    rw [hnone, Option.map_none]
    cases hsearch : ru.search order r b.waiting with
    | none => rfl
    | some pf =>
        obtain ⟨hfind, hadm⟩ := Rules.search_eq_some hsearch
        simp only [Rules.admits, hq, Bool.and_eq_true, Bool.or_eq_true, beq_iff_eq,
          reduceCtorEq, false_or, Option.some_inj] at hadm
        rw [← hadm.1, hnone] at hfind
        cases hfind

theorem Reachable.events (hr : Reachable ru h) (hc : h.cancelled = [])
    (hnamed : ∀ r ∈ h.asked, ru.waits r ∧ ∃ q, ru.peer r = some q) :
    ∃ es : List (Event R F σ),
      es.foldl (Tally.step ru) Tally.empty = ⟨h.board, h.log⟩ ∧
      (∀ e ∈ es, e.Named ru) ∧
      (∀ p, (es.filter fun e => e.kind = some p) = (h.arrived p).map (.arrive p)) ∧
      (es.filter fun e => e.kind = none) = h.asked.map (call ru) := by
  induction hr with
  | refl => exact ⟨[], rfl, by simp, fun _ => rfl, rfl⟩
  | @tail h h' hr hstep ih =>
      cases hstep with
      | arrive p f hfresh =>
          obtain ⟨es, hrun, hes, harrived, hasked⟩ := ih hc hnamed
          refine ⟨es ++ [.arrive p f], ?_, ?_, ?_, ?_⟩
          · rw [List.foldl_append, hrun]
            rfl
          · simpa [Event.Named, or_imp, forall_and] using hes
          · intro q
            by_cases hq : q = p
            · subst hq
              simp [harrived, arrived_arrive_self]
            · simp [harrived, arrived_arrive_of_ne hq, Ne.symm hq]
          · simpa [History.arrive] using hasked
      | post order r hcovers hfresh =>
          obtain ⟨es, hrun, hes, harrived, hasked⟩ := ih hc fun r' hr' =>
            hnamed r' (List.mem_append_left _ hr')
          obtain ⟨hwaits, q, hq⟩ := hnamed r (List.mem_append_right _ List.mem_cons_self)
          refine ⟨es ++ [call ru r], ?_, ?_, ?_, ?_⟩
          · rw [List.foldl_append, hrun]
            have hsearch := search_call hcovers ⟨q, hq⟩
            simp [History.post, Tally.step, Tally.add, call, Board.post, hsearch]
          · intro e he
            rcases List.mem_append.mp he with he | he
            · exact hes e he
            · rw [List.mem_singleton.mp he]
              exact ⟨hwaits, q, by simp [hq], hq⟩
          · intro p
            simpa [call, History.post] using harrived p
          · simp [hasked, call, History.post]
      | cancel r => simp [History.cancel] at hc

/-- Two histories with the same messages and the same requests end up the same,
if every request names its source and waits. -/
theorem eq_of_named (hr₁ : Reachable ru h₁) (hr₂ : Reachable ru h₂)
    (hc₁ : h₁.cancelled = []) (hc₂ : h₂.cancelled = [])
    (harrived : h₁.arrived = h₂.arrived) (hasked : h₁.asked = h₂.asked)
    (hnamed : ∀ r ∈ h₁.asked, ru.waits r ∧ ∃ q, ru.peer r = some q) :
    h₁.board = h₂.board ∧ h₁.log.Perm h₂.log := by
  obtain ⟨es₁, hrun₁, hes₁, harrived₁, hasked₁⟩ := hr₁.events hc₁ hnamed
  obtain ⟨es₂, hrun₂, hes₂, harrived₂, hasked₂⟩ := hr₂.events hc₂ (hasked ▸ hnamed)
  have horders : SameOrders Event.kind es₁ es₂ := by
    intro k
    cases k with
    | none => rw [hasked₁, hasked₂, hasked]
    | some p => rw [harrived₁, harrived₂, harrived]
  have hsame := Tally.run_eq_of_sameOrders horders hes₁ hes₂
  rw [hrun₁, hrun₂, Tally.mk.injEq] at hsame
  exact ⟨hsame.1, Multiset.coe_eq_coe.mp hsame.2⟩

end History

end ProgPara.Matching
