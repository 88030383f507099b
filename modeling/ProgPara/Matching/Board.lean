import Mathlib.Data.List.Basic
import Mathlib.Logic.Function.Basic
import ProgPara.Matching.Interleaving

/-!
# Matching messages with requests

A receiver keeps two things: the requests posted and not served, oldest first,
and for each source the messages that arrived and were not taken.  A message is
offered to the requests in the order they were posted; a request looks for the
oldest message that fits it, source by source in an order it is given.  Some
requests take the message and some only look at it, and some give up when
nothing is there.

Sources are anything, and what fits what is any test.
-/

namespace ProgPara.Matching

open Function

/-- What a request wants and what it does when it is served.  A request without
a peer accepts every source. -/
structure Rules (R F σ : Type*) where
  peer : R → Option σ
  fits : R → σ → F → Bool
  takes : R → Bool
  waits : R → Bool

structure Board (R F σ : Type*) where
  posted : List R
  waiting : σ → List F

structure Pair (R F σ : Type*) where
  req : R
  src : σ
  msg : F

variable {R F σ : Type*} [DecidableEq σ]

namespace Rules

variable (ru : Rules R F σ)

def admits (r : R) (p : σ) (f : F) : Bool :=
  (ru.peer r == none || ru.peer r == some p) && ru.fits r p f

/-- The result of showing a message to the posted requests: those it served, the
last of which took it if any did, and those that stay. -/
structure Offer (R : Type*) where
  served : List R
  kept : List R
  taken : Bool

def offer (p : σ) (f : F) : List R → Offer R
  | [] => ⟨[], [], false⟩
  | r :: rest =>
      if ru.admits r p f then
        if ru.takes r then ⟨[r], rest, true⟩
        else
          let o := offer p f rest
          ⟨r :: o.served, o.kept, o.taken⟩
      else
        let o := offer p f rest
        ⟨o.served, r :: o.kept, o.taken⟩

def search (order : List σ) (r : R) (waiting : σ → List F) : Option (σ × F) :=
  order.findSome? fun p =>
    if ru.peer r = none ∨ ru.peer r = some p then
      ((waiting p).find? (ru.fits r p)).map fun f => (p, f)
    else none

end Rules

namespace Board

variable (ru : Rules R F σ)

def empty : Board R F σ := ⟨[], fun _ => []⟩

def arrive (b : Board R F σ) (p : σ) (f : F) : Board R F σ × List (Pair R F σ) :=
  let o := ru.offer p f b.posted
  (⟨o.kept, if o.taken then b.waiting else update b.waiting p (b.waiting p ++ [f])⟩,
    o.served.map fun r => ⟨r, p, f⟩)

def post (b : Board R F σ) (order : List σ) (r : R) :
    Board R F σ × List (Pair R F σ) :=
  match ru.search order r b.waiting with
  | none => (if ru.waits r then { b with posted := b.posted ++ [r] } else b, [])
  | some (p, f) =>
      (if ru.takes r then
          { b with waiting := update b.waiting p ((b.waiting p).eraseP (ru.fits r p)) }
        else b,
        [⟨r, p, f⟩])

def cancel [DecidableEq R] (b : Board R F σ) (r : R) : Board R F σ :=
  { b with posted := b.posted.erase r }

def Covers (b : Board R F σ) (order : List σ) (r : R) : Prop :=
  ∀ p, ∀ f ∈ b.waiting p, ru.admits r p f → p ∈ order

/-- No posted request and no waiting message are made for each other. -/
def Apart (b : Board R F σ) : Prop :=
  ∀ r ∈ b.posted, ∀ p, ∀ f ∈ b.waiting p, ¬ru.admits r p f

end Board

/-! ## What an offer does -/

namespace Rules

variable {ru : Rules R F σ} {p : σ} {f : F} {posted : List R}

theorem offer_served_sublist : (ru.offer p f posted).served.Sublist posted := by
  fun_induction ru.offer p f posted with
  | case1 => exact .slnil
  | case2 => exact List.singleton_sublist.mpr List.mem_cons_self
  | case3 r rest _ _ o ih => exact List.cons_sublist_cons.mpr ih
  | case4 r rest _ o ih => exact ih.cons r

theorem offer_kept_sublist : (ru.offer p f posted).kept.Sublist posted := by
  fun_induction ru.offer p f posted with
  | case1 => exact .slnil
  | case2 r rest => exact List.sublist_cons_self r rest
  | case3 r rest _ _ o ih => exact ih.cons r
  | case4 r rest _ o ih => exact List.cons_sublist_cons.mpr ih

theorem offer_perm :
    ((ru.offer p f posted).served ++ (ru.offer p f posted).kept).Perm posted := by
  fun_induction ru.offer p f posted with
  | case1 => exact .refl _
  | case2 => exact .refl _
  | case3 r rest _ _ o ih => exact ih.cons r
  | case4 r rest _ o ih => exact List.perm_middle.trans (ih.cons r)

theorem offer_admits {r : R} (hr : r ∈ (ru.offer p f posted).served) :
    ru.admits r p f := by
  fun_induction ru.offer p f posted with
  | case1 => cases hr
  | case2 r' rest h _ => exact List.mem_singleton.mp hr ▸ h
  | case3 r' rest h _ o ih =>
      rcases List.mem_cons.mp hr with rfl | hr
      · exact h
      · exact ih hr
  | case4 r' rest h o ih => exact ih hr

theorem offer_refused (htaken : (ru.offer p f posted).taken = false) {r : R}
    (hr : r ∈ (ru.offer p f posted).kept) : ¬ru.admits r p f := by
  fun_induction ru.offer p f posted with
  | case1 => cases hr
  | case2 => cases htaken
  | case3 r' rest _ _ o ih => exact ih htaken hr
  | case4 r' rest h o ih =>
      rcases List.mem_cons.mp hr with rfl | hr
      · exact h
      · exact ih htaken hr

theorem offer_takers (ru : Rules R F σ) (p : σ) (f : F) (posted : List R) :
    (ru.offer p f posted).taken = true ∧
        (∃ r, (ru.offer p f posted).served.filter ru.takes = [r]) ∨
      (ru.offer p f posted).taken = false ∧
        (ru.offer p f posted).served.filter ru.takes = [] := by
  fun_induction ru.offer p f posted with
  | case1 => exact .inr ⟨rfl, rfl⟩
  | case2 r rest _ h => exact .inl ⟨rfl, r, by simp [h]⟩
  | case3 r rest _ h o ih => simpa [h] using ih
  | case4 r rest _ o ih => exact ih

theorem offer_kept_after {r r' : R} (hr : r ∈ (ru.offer p f posted).served)
    (hr' : r' ∈ (ru.offer p f posted).kept) (hadm : ru.admits r' p f) :
    Precedes posted r r' := by
  fun_induction ru.offer p f posted with
  | case1 => cases hr
  | case2 x rest _ _ =>
      rw [List.mem_singleton.mp hr]
      exact List.cons_sublist_cons.mpr (List.singleton_sublist.mpr hr')
  | case3 x rest hx ht o ih =>
      rcases List.mem_cons.mp hr with rfl | hserved
      · have hrest : r' ∈ rest := offer_kept_sublist.subset hr'
        exact List.cons_sublist_cons.mpr (List.singleton_sublist.mpr hrest)
      · exact (ih hserved hr').sublist (List.sublist_cons_self x rest)
  | case4 x rest hx o ih =>
      rcases List.mem_cons.mp hr' with rfl | hkept
      · exact absurd hadm hx
      · exact (ih hr hkept).sublist (List.sublist_cons_self x rest)

/-- An offer can also start again from the oldest request each time it has served
one. -/
theorem offer_eq (ru : Rules R F σ) (p : σ) (f : F) (posted : List R) :
    ru.offer p f posted =
      match posted.find? (ru.admits · p f) with
      | none => ⟨[], posted, false⟩
      | some r =>
          if ru.takes r then ⟨[r], posted.eraseP (ru.admits · p f), true⟩
          else
            let o := ru.offer p f (posted.eraseP (ru.admits · p f))
            ⟨r :: o.served, o.kept, o.taken⟩ := by
  induction posted with
  | nil => rfl
  | cons x rest ih =>
      by_cases hx : ru.admits x p f
      · simp [offer, hx]
      · rw [List.find?_cons_of_neg (p := (ru.admits · p f)) hx,
          List.eraseP_cons_of_neg (p := (ru.admits · p f)) hx]
        simp only [offer, hx, Bool.false_eq_true, if_false]
        rw [ih]
        cases hfind : rest.find? (ru.admits · p f) with
        | none => rfl
        | some r =>
            simp only
            split <;> rfl

theorem search_eq_some {order : List σ} {r : R} {waiting : σ → List F}
    (h : ru.search order r waiting = some (p, f)) :
    (waiting p).find? (ru.fits r p) = some f ∧ ru.admits r p f := by
  obtain ⟨q, -, hq⟩ := List.exists_of_findSome?_eq_some h
  split at hq
  · rename_i hpeer
    obtain ⟨f', hfind, heq⟩ := Option.map_eq_some_iff.mp hq
    cases heq
    exact ⟨hfind, by simpa [admits, List.find?_some hfind] using hpeer⟩
  · cases hq

theorem search_eq_none {order : List σ} {r : R} {waiting : σ → List F}
    (h : ru.search order r waiting = none) {p : σ} (hp : p ∈ order) {f : F}
    (hf : f ∈ waiting p) : ¬ru.admits r p f := by
  have hnone := List.findSome?_eq_none_iff.mp h p hp
  intro hadm
  have hadm' : (ru.peer r = none ∨ ru.peer r = some p) ∧ ru.fits r p f := by
    simpa [admits] using hadm
  rw [if_pos hadm'.1, Option.map_eq_none_iff] at hnone
  exact absurd hadm'.2 (List.find?_eq_none.mp hnone f hf)

end Rules

/-! ## Nothing that could be matched is left -/

namespace Board

variable {ru : Rules R F σ} {b : Board R F σ}

theorem Apart.empty : Apart ru (empty : Board R F σ) := fun _ h => by cases h

theorem Apart.arrive (hb : Apart ru b) (p : σ) (f : F) :
    Apart ru (arrive ru b p f).1 := by
  intro r hr q g hg
  have hposted : r ∈ b.posted := Rules.offer_kept_sublist.subset hr
  simp only [Board.arrive] at hr hg
  split at hg
  · exact hb r hposted q g hg
  · rename_i htaken
    by_cases hq : q = p
    · subst hq
      rw [update_self] at hg
      rcases List.mem_append.mp hg with hg | hg
      · exact hb r hposted q g hg
      · rw [List.mem_singleton.mp hg]
        exact Rules.offer_refused (by simpa using htaken) hr
    · rw [update_of_ne hq] at hg
      exact hb r hposted q g hg

theorem Apart.post (hb : Apart ru b) {order : List σ} {r : R}
    (hcovers : Covers ru b order r) : Apart ru (post ru b order r).1 := by
  unfold Board.post
  cases hsearch : ru.search order r b.waiting with
  | none =>
      simp only
      split
      · intro r' hr' p f hf
        rcases List.mem_append.mp hr' with h | h
        · exact hb r' h p f hf
        · rw [List.mem_singleton.mp h]
          intro hadm
          exact Rules.search_eq_none hsearch (hcovers p f hf hadm) hf hadm
      · exact hb
  | some pf =>
      simp only
      split
      · intro r' hr' p f hf
        by_cases hp : p = pf.1
        · subst hp
          simp only [update_self] at hf
          exact hb r' hr' _ f (List.eraseP_sublist.subset hf)
        · simp only [update_of_ne hp] at hf
          exact hb r' hr' p f hf
      · exact hb

theorem Apart.cancel [DecidableEq R] (hb : Apart ru b) (r : R) : Apart ru (b.cancel r) :=
  fun r' hr' => hb r' (List.erase_sublist.subset hr')

end Board

end ProgPara.Matching
