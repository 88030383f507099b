import Mathlib.Data.List.Basic
import Mathlib.Data.List.Induction
import Mathlib.Data.List.Nodup

/-!
# Interleavings

Two schedules of the same events may differ in how the events of different
kinds are interleaved and agree on the order inside each kind.  A machine whose
steps commute across kinds cannot tell such schedules apart.

`Precedes` compares two places in one list; it is an order when the list has no
repetition.
-/

namespace ProgPara.Matching

variable {α E K S : Type*}

/-! ## Order inside a list -/

def Precedes (l : List α) (a b : α) : Prop := [a, b].Sublist l

namespace Precedes

variable {l l' : List α} {a b c : α}

theorem sublist (h : Precedes l a b) (hl : l.Sublist l') : Precedes l' a b :=
  List.Sublist.trans h hl

theorem left_mem (h : Precedes l a b) : a ∈ l :=
  (List.Sublist.subset h) List.mem_cons_self

theorem right_mem (h : Precedes l a b) : b ∈ l :=
  (List.Sublist.subset h) (List.mem_cons_of_mem a List.mem_cons_self)

theorem of_concat (h : Precedes (l ++ [c]) a b) (hb : b ≠ c) : Precedes l a b := by
  obtain ⟨s₁, s₂, heq, h₁, h₂⟩ := List.sublist_append_iff.mp h
  rcases List.sublist_singleton.mp h₂ with rfl | rfl
  · rw [List.append_nil] at heq
    rw [Precedes, heq]
    exact h₁
  · have hlast := congrArg List.getLast? heq
    simp at hlast
    exact absurd hlast hb

theorem of_initial (h : Precedes l a b) (hl : l.Nodup) (hl' : l' <+: l) (hb : b ∈ l') :
    Precedes l' a b := by
  obtain ⟨t, rfl⟩ := hl'
  obtain ⟨s₁, s₂, heq, h₁, h₂⟩ := List.sublist_append_iff.mp h
  have hbt : b ∉ s₂ := fun hmem =>
    (List.nodup_append.mp hl).2.2 b hb b (h₂.subset hmem) rfl
  have hnil : s₂ = [] := by
    by_contra hne
    have hlast := congrArg List.getLast? heq
    rw [List.getLast?_append_of_ne_nil _ hne] at hlast
    exact hbt (List.mem_of_getLast? (hlast.symm.trans rfl))
  rw [hnil, List.append_nil] at heq
  rw [Precedes, heq]
  exact h₁

theorem asymm (h : Precedes l a b) (hl : l.Nodup) : ¬Precedes l b a := by
  intro h'
  induction l with
  | nil => simp [Precedes] at h
  | cons x l ih =>
      have hx := List.nodup_cons.mp hl
      rcases List.cons_sublist_cons'.mp h with hab | ⟨rfl, hb⟩
      · rcases List.cons_sublist_cons'.mp h' with hba | ⟨rfl, ha⟩
        · exact ih hab hx.2 hba
        · exact hx.1 (hab.subset (by simp))
      · rcases List.cons_sublist_cons'.mp h' with hba | ⟨rfl, ha⟩
        · exact hx.1 (hba.subset (by simp))
        · exact hx.1 (List.singleton_sublist.mp hb)

theorem pairwise_of_sublist (h : l'.Sublist l) : l'.Pairwise (Precedes l) :=
  List.pairwise_iff_forall_sublist.mpr fun hab => Precedes.sublist hab h

theorem irrefl (hl : l.Nodup) : ¬Precedes l a a := fun h => h.asymm hl h

end Precedes

/-- A list each element of which comes after all that precede it in another one is
an initial part of it. -/
theorem initial_of_precedes {l l' : List α} (hl : l.Nodup) (hl' : l'.Nodup) (hsub : l' ⊆ l)
    (h : ∀ a x b, l' = a ++ x :: b → ∀ g, Precedes l g x → g ∈ a) : l' <+: l := by
  induction l' using List.reverseRecOn with
  | nil => exact List.nil_prefix
  | append_singleton a x ih =>
      have hnodup := List.nodup_append.mp hl'
      have ha : a <+: l := by
        refine ih hnodup.1 (fun y hy => hsub (List.mem_append_left _ hy)) ?_
        intro a' y b hsplit g hg
        exact h a' y (b ++ [x]) (by rw [hsplit, List.append_assoc, List.cons_append]) g hg
      obtain ⟨rest, hrest⟩ := ha
      have hx : x ∈ rest := by
        have hmem := hsub (List.mem_append_right a (List.mem_singleton_self x))
        rw [← hrest] at hmem
        refine (List.mem_append.mp hmem).resolve_left fun hxa => ?_
        exact hnodup.2.2 x hxa x (List.mem_singleton_self x) rfl
      cases rest with
      | nil => cases hx
      | cons y rest =>
          by_cases hxy : x = y
          · refine ⟨rest, ?_⟩
            rw [hxy, List.append_assoc, ← hrest]
            rfl
          · -- `y` would be an element of `a` before `x`
            have hxrest := (List.mem_cons.mp hx).resolve_left hxy
            have hyx : Precedes (y :: rest) y x :=
              List.cons_sublist_cons.mpr (List.singleton_sublist.mpr hxrest)
            have hprec : Precedes l y x := hrest ▸ hyx.sublist (List.sublist_append_right a _)
            have hya := h a x [] rfl y hprec
            rw [← hrest] at hl
            exact absurd rfl ((List.nodup_append.mp hl).2.2 y hya y List.mem_cons_self)

/-- Among the elements of a sublist that pass a test, none precedes the one that
`find?` returns. -/
theorem not_precedes_of_find? {l w : List α} {p : α → Bool} {a b : α} (hl : l.Nodup)
    (hw : w.Sublist l) (hfind : w.find? p = some b) (ha : a ∈ w) (hp : p a) :
    ¬Precedes l a b := by
  obtain ⟨hb, w₁, w₂, rfl, hw₁⟩ := List.find?_eq_some_iff_append.mp hfind
  intro hab
  rcases List.mem_append.mp ha with h | h
  · exact absurd hp (by simpa using hw₁ a h)
  · rcases List.mem_cons.mp h with rfl | h
    · exact Precedes.irrefl hl hab
    · apply hab.asymm hl
      refine Precedes.sublist ?_ ((List.sublist_append_right w₁ _).trans hw)
      exact List.cons_sublist_cons.mpr (List.singleton_sublist.mpr h)

theorem perm_eraseP_of_find? {w : List α} {p : α → Bool} {b : α}
    (hfind : w.find? p = some b) : w.Perm (b :: w.eraseP p) := by
  obtain ⟨hb, w₁, w₂, rfl, hw₁⟩ := List.find?_eq_some_iff_append.mp hfind
  rw [List.eraseP_append_right _ (by simpa using hw₁), List.eraseP_cons_of_pos hb]
  exact List.perm_middle

/-! ## Schedules that differ by their interleaving only -/

section Schedules

def SameOrders [DecidableEq K] (key : E → K) (l₁ l₂ : List E) : Prop :=
  ∀ k, (l₁.filter fun e => key e = k) = l₂.filter fun e => key e = k

variable {key : E → K} {step : S → E → S} {Inv : S → Prop} {Ok : E → Prop}

/-- An event can be brought forward past events of other kinds. -/
theorem foldl_bring_forward
    (hinv : ∀ s e, Ok e → Inv s → Inv (step s e))
    (hcomm : ∀ s a b, Ok a → Ok b → key a ≠ key b → Inv s →
      step (step s a) b = step (step s b) a)
    {s : S} {e : E} {l : List E} (hs : Inv s) (he : Ok e) (hl : ∀ a ∈ l, Ok a)
    (hkey : ∀ a ∈ l, key a ≠ key e) :
    (l ++ [e]).foldl step s = l.foldl step (step s e) := by
  induction l generalizing s with
  | nil => rfl
  | cons a l ih =>
      have ha := hl a List.mem_cons_self
      rw [List.cons_append, List.foldl_cons, List.foldl_cons,
        ih (hinv s a ha hs) (fun b hb => hl b (List.mem_cons_of_mem _ hb))
          (fun b hb => hkey b (List.mem_cons_of_mem _ hb)),
        hcomm s a e ha he (hkey a List.mem_cons_self) hs]

theorem foldl_eq_of_sameOrders [DecidableEq K]
    (hinv : ∀ s e, Ok e → Inv s → Inv (step s e))
    (hcomm : ∀ s a b, Ok a → Ok b → key a ≠ key b → Inv s →
      step (step s a) b = step (step s b) a)
    {s : S} {l₁ l₂ : List E} (hs : Inv s) (hok₁ : ∀ e ∈ l₁, Ok e) (hok₂ : ∀ e ∈ l₂, Ok e)
    (h : SameOrders key l₁ l₂) : l₁.foldl step s = l₂.foldl step s := by
  induction l₁ generalizing l₂ s with
  | nil =>
      have hnil : l₂ = [] := by
        rw [List.eq_nil_iff_forall_not_mem]
        intro e he
        have hmem : e ∈ l₂.filter fun a => key a = key e := by simpa using he
        rw [← h (key e)] at hmem
        simp at hmem
      rw [hnil]
  | cons e l₁ ih =>
      have hfirst : l₂.filter (fun a => key a = key e) =
          e :: l₁.filter fun a => key a = key e := by
        rw [← h (key e)]
        simp
      obtain ⟨before, after, rfl, hbefore, -, hafter⟩ := List.filter_eq_cons_iff.mp hfirst
      have hkey : ∀ a ∈ before, key a ≠ key e := by simpa using hbefore
      have he := hok₁ e List.mem_cons_self
      have hbring := foldl_bring_forward hinv hcomm hs he
        (fun a ha => hok₂ a (by simp [ha])) hkey
      have hrest : SameOrders key l₁ (before ++ after) := by
        intro k
        have hk := h k
        by_cases hek : key e = k
        · subst hek
          have hnone := List.filter_eq_nil_iff.mpr hbefore
          rw [List.filter_append, hafter, hnone, List.nil_append]
        · simpa [hek] using hk
      calc (e :: l₁).foldl step s
          = l₁.foldl step (step s e) := rfl
        _ = (before ++ after).foldl step (step s e) :=
            ih (hinv s e he hs) (fun a ha => hok₁ a (List.mem_cons_of_mem _ ha))
              (fun a ha => hok₂ a (by
                rcases List.mem_append.mp ha with h' | h'
                · simp [h']
                · simp [h'])) hrest
        _ = after.foldl step (before.foldl step (step s e)) := List.foldl_append
        _ = after.foldl step ((before ++ [e]).foldl step s) := by rw [hbring]
        _ = (before ++ e :: after).foldl step s := by simp [List.foldl_append]

end Schedules

end ProgPara.Matching
