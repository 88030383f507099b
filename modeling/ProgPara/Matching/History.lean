import Mathlib.Logic.Relation
import ProgPara.Matching.Board

/-!
# What a whole run matches

A history is a board together with everything that arrived, everything that was
asked or cancelled and everything that was matched, in order.  In every history that a run
can produce nothing is lost or matched twice, no message is overtaken by a
later one of its source, and no request by a later request: `not_overtaken` and
`not_outrun`.
-/

namespace ProgPara.Matching

open Function Relation

variable {R F σ : Type*} [DecidableEq σ]

structure History (R F σ : Type*) where
  board : Board R F σ
  arrived : σ → List F
  asked : List R
  cancelled : List R
  log : List (Pair R F σ)

namespace History

variable (ru : Rules R F σ)

def init : History R F σ := ⟨Board.empty, fun _ => [], [], [], []⟩

def arrive (h : History R F σ) (p : σ) (f : F) : History R F σ where
  board := (h.board.arrive ru p f).1
  arrived := update h.arrived p (h.arrived p ++ [f])
  asked := h.asked
  cancelled := h.cancelled
  log := h.log ++ (h.board.arrive ru p f).2

def post (h : History R F σ) (order : List σ) (r : R) : History R F σ where
  board := (h.board.post ru order r).1
  arrived := h.arrived
  asked := h.asked ++ [r]
  cancelled := h.cancelled
  log := h.log ++ (h.board.post ru order r).2

def cancel [DecidableEq R] (h : History R F σ) (r : R) : History R F σ :=
  { h with board := h.board.cancel r, cancelled := h.cancelled ++ [r] }

inductive Step [DecidableEq R] (h : History R F σ) : History R F σ → Prop
  | arrive (p : σ) (f : F) (hfresh : f ∉ h.arrived p) : Step h (h.arrive ru p f)
  | post (order : List σ) (r : R) (hcovers : h.board.Covers ru order r)
      (hfresh : r ∉ h.asked) : Step h (h.post ru order r)
  | cancel (r : R) : Step h (h.cancel r)

def Reachable [DecidableEq R] (h : History R F σ) : Prop := ReflTransGen (Step ru) init h

def taken (p : σ) (log : List (Pair R F σ)) : List F :=
  (log.filter fun x => ru.takes x.req && x.src == p).map (·.msg)

/-- Pair `x` took its message although `g`, which its request accepts too, had
arrived before from the same source. -/
def Overtakes (h : History R F σ) (x : Pair R F σ) (g : F) : Prop :=
  ru.takes x.req ∧ Precedes (h.arrived x.src) g x.msg ∧ ru.admits x.req x.src g

/-- Pair `x` got its message although request `r`, which accepts it too, had
been posted before. -/
def Outruns (h : History R F σ) (x : Pair R F σ) (r : R) : Prop :=
  Precedes h.asked r x.req ∧ ru.admits r x.src x.msg

structure Sound (h : History R F σ) : Prop where
  apart : h.board.Apart ru
  arrived_nodup : ∀ p, (h.arrived p).Nodup
  asked_nodup : h.asked.Nodup
  waiting : ∀ p, (h.board.waiting p).Sublist (h.arrived p)
  posted : h.board.posted.Sublist h.asked
  log_asked : ∀ x ∈ h.log, x.req ∈ h.asked
  log_arrived : ∀ x ∈ h.log, x.msg ∈ h.arrived x.src
  log_admits : ∀ x ∈ h.log, ru.admits x.req x.src x.msg
  conserved : ∀ p, (h.arrived p).Perm (h.board.waiting p ++ taken ru p h.log)
  served_once : (h.log.map (·.req) ++ h.board.posted).Nodup
  not_waiting : ∀ x ∈ h.log, ∀ g ∈ h.board.waiting x.src, ¬Overtakes ru h x g
  not_later : h.log.Pairwise fun x y =>
    ru.takes y.req → y.src = x.src → ¬Overtakes ru h x y.msg
  not_posted : ∀ x ∈ h.log, ∀ r ∈ h.board.posted, ¬Outruns ru h x r
  not_served_later : h.log.Pairwise fun x y => ¬Outruns ru h x y.req

variable {ru} {h h' : History R F σ}

theorem taken_append (p : σ) (l₁ l₂ : List (Pair R F σ)) :
    taken ru p (l₁ ++ l₂) = taken ru p l₁ ++ taken ru p l₂ := by
  simp [taken]

theorem Sound.init : Sound ru (init : History R F σ) where
  apart := .empty
  arrived_nodup _ := .nil
  asked_nodup := .nil
  waiting _ := .slnil
  posted := .slnil
  log_asked _ hx := by cases hx
  log_arrived _ hx := by cases hx
  log_admits _ hx := by cases hx
  conserved _ := .nil
  served_once := .nil
  not_waiting _ hx := by cases hx
  not_later := .nil
  not_posted _ hx := by cases hx
  not_served_later := .nil

/-! ## A message arrives -/

section Arrive

variable {p : σ} {f : F}

theorem arrived_arrive_self : (h.arrive ru p f).arrived p = h.arrived p ++ [f] :=
  update_self ..

theorem arrived_arrive_of_ne {q : σ} (hq : q ≠ p) :
    (h.arrive ru p f).arrived q = h.arrived q := update_of_ne hq ..

theorem mem_arrived_arrive {q : σ} {g : F} (hg : g ∈ h.arrived q) :
    g ∈ (h.arrive ru p f).arrived q := by
  by_cases hq : q = p
  · subst hq
    rw [arrived_arrive_self]
    exact List.mem_append_left _ hg
  · rwa [arrived_arrive_of_ne hq]

theorem mem_waiting_arrive {q : σ} {g : F} (hg : g ∈ (h.arrive ru p f).board.waiting q) :
    g ∈ h.board.waiting q ∨
      q = p ∧ g = f ∧ (ru.offer p f h.board.posted).taken = false := by
  simp only [arrive, Board.arrive] at hg
  split at hg
  · exact .inl hg
  · rename_i htaken
    by_cases hq : q = p
    · subst hq
      rw [update_self] at hg
      rcases List.mem_append.mp hg with hg | hg
      · exact .inl hg
      · exact .inr ⟨rfl, List.mem_singleton.mp hg, by simpa using htaken⟩
    · rw [update_of_ne hq] at hg
      exact .inl hg

theorem mem_arrive_log {x : Pair R F σ} (hx : x ∈ (h.board.arrive ru p f).2) :
    x.src = p ∧ x.msg = f ∧ x.req ∈ (ru.offer p f h.board.posted).served := by
  obtain ⟨r, hr, rfl⟩ := List.mem_map.mp hx
  exact ⟨rfl, rfl, hr⟩

theorem overtakes_of_arrive (hfresh : f ∉ h.arrived p) {x : Pair R F σ}
    (hx : x.msg ∈ h.arrived x.src) {g : F} (hover : Overtakes ru (h.arrive ru p f) x g) :
    Overtakes ru h x g := by
  obtain ⟨htakes, hprec, hadm⟩ := hover
  refine ⟨htakes, ?_, hadm⟩
  by_cases hp : x.src = p
  · rw [hp, arrived_arrive_self] at hprec
    rw [hp] at hx ⊢
    exact hprec.of_concat fun h' => hfresh (h' ▸ hx)
  · rwa [arrived_arrive_of_ne hp] at hprec

theorem not_overtakes_arrived (hfresh : f ∉ h.arrived p) {x : Pair R F σ}
    (hx : x.msg ∈ h.arrived x.src) (hp : x.src = p) :
    ¬Overtakes ru (h.arrive ru p f) x f := by
  intro hover
  have hprec := (overtakes_of_arrive hfresh hx hover).2.1
  exact hfresh (hp ▸ hprec.left_mem)

variable (hs : Sound ru h) (hfresh : f ∉ h.arrived p)
include hs hfresh

theorem Sound.arrive_nodup (q : σ) : ((h.arrive ru p f).arrived q).Nodup := by
  by_cases hq : q = p
  · subst hq
    rw [arrived_arrive_self]
    exact List.nodup_append_comm.mp (List.nodup_cons.mpr ⟨hfresh, hs.arrived_nodup q⟩)
  · rw [arrived_arrive_of_ne hq]
    exact hs.arrived_nodup q

omit hfresh in
theorem Sound.arrive_waiting (q : σ) :
    ((h.arrive ru p f).board.waiting q).Sublist ((h.arrive ru p f).arrived q) := by
  simp only [History.arrive, Board.arrive]
  by_cases hq : q = p
  · subst hq
    rw [update_self]
    split
    · exact (hs.waiting q).trans (List.sublist_append_left _ _)
    · rw [update_self]
      exact (hs.waiting q).append (List.Sublist.refl _)
  · rw [update_of_ne hq]
    split
    · exact hs.waiting q
    · rw [update_of_ne hq]
      exact hs.waiting q

omit hfresh in
theorem Sound.arrive_conserved (q : σ) :
    ((h.arrive ru p f).arrived q).Perm
      ((h.arrive ru p f).board.waiting q ++ taken ru q (h.arrive ru p f).log) := by
  have hold := hs.conserved q
  simp only [History.arrive, Board.arrive, taken_append]
  by_cases hq : q = p
  · subst hq
    have hout : taken ru q ((ru.offer q f h.board.posted).served.map fun r => ⟨r, q, f⟩) =
        ((ru.offer q f h.board.posted).served.filter ru.takes).map fun _ => f := by
      simp [taken, List.filter_map, Function.comp_def]
    rw [update_self, hout]
    rcases ru.offer_takers q f h.board.posted with
      ⟨htaken, r, hr⟩ | ⟨htaken, hr⟩
    · rw [htaken, if_pos rfl, hr, ← List.append_assoc]
      exact hold.append_right _
    · rw [htaken, if_neg (by simp), hr, update_self, List.map_nil, List.append_nil,
        List.append_assoc]
      refine (hold.append_right _).trans ?_
      rw [List.append_assoc]
      exact List.perm_append_comm.append_left _
  · have hout : taken ru q ((ru.offer p f h.board.posted).served.map fun r => ⟨r, p, f⟩) =
        [] := by
      simp [taken, List.filter_map, Function.comp_def, Ne.symm hq]
    rw [update_of_ne hq, hout, List.append_nil]
    split
    · exact hold
    · rw [update_of_ne hq]
      exact hold

omit hfresh in
theorem Sound.arrive_served_once :
    ((h.arrive ru p f).log.map (·.req) ++ (h.arrive ru p f).board.posted).Nodup := by
  have hserved : ((h.board.arrive ru p f).2.map (·.req)) =
      (ru.offer p f h.board.posted).served := by
    simp [Board.arrive, Function.comp_def]
  have hperm : (h.log.map (·.req) ++ ((ru.offer p f h.board.posted).served ++
      (ru.offer p f h.board.posted).kept)).Perm (h.log.map (·.req) ++ h.board.posted) :=
    Rules.offer_perm.append_left _
  simp only [History.arrive, List.map_append, hserved, List.append_assoc]
  exact hperm.nodup_iff.mpr hs.served_once

theorem Sound.arrive_not_waiting :
    ∀ x ∈ (h.arrive ru p f).log, ∀ g ∈ (h.arrive ru p f).board.waiting x.src,
      ¬Overtakes ru (h.arrive ru p f) x g := by
  intro x hx g hg
  rcases List.mem_append.mp hx with hx | hx
  · have harr := hs.log_arrived x hx
    rcases mem_waiting_arrive hg with hg | ⟨hp, rfl, -⟩
    · exact fun hover => hs.not_waiting x hx g hg (overtakes_of_arrive hfresh harr hover)
    · exact not_overtakes_arrived hfresh harr hp
  · obtain ⟨hsrc, -, hserved⟩ := mem_arrive_log hx
    rintro ⟨htakes, -, hadm⟩
    rcases mem_waiting_arrive hg with hg | ⟨-, -, htaken⟩
    · exact hs.apart _ (Rules.offer_served_sublist.subset hserved) _ g hg hadm
    · rcases ru.offer_takers p f h.board.posted with
        ⟨htaken', -⟩ | ⟨-, hnone⟩
      · rw [htaken] at htaken'
        cases htaken'
      · have hmem := List.mem_filter.mpr ⟨hserved, htakes⟩
        rw [hnone] at hmem
        cases hmem

theorem Sound.arrive_not_later :
    (h.arrive ru p f).log.Pairwise fun x y =>
      ru.takes y.req → y.src = x.src → ¬Overtakes ru (h.arrive ru p f) x y.msg := by
  refine List.pairwise_append.mpr ⟨?_, ?_, ?_⟩
  · refine hs.not_later.imp_of_mem ?_
    intro x y hx _ hxy htakes hsrc hover
    exact hxy htakes hsrc (overtakes_of_arrive hfresh (hs.log_arrived x hx) hover)
  · refine List.pairwise_of_forall_mem_list ?_
    intro x hx y hy _ _ hover
    obtain ⟨hsrc, hmsg, -⟩ := mem_arrive_log hx
    obtain ⟨-, hmsg', -⟩ := mem_arrive_log hy
    have hprec := hover.2.1
    rw [hmsg', hmsg] at hprec
    exact Precedes.irrefl (hs.arrive_nodup hfresh x.src) hprec
  · intro x hx y hy _ hsrc hover
    obtain ⟨hsrc', hmsg, -⟩ := mem_arrive_log hy
    rw [hmsg] at hover
    exact not_overtakes_arrived hfresh (hs.log_arrived x hx) (hsrc.symm.trans hsrc') hover

omit hfresh in
theorem Sound.arrive_not_posted :
    ∀ x ∈ (h.arrive ru p f).log, ∀ r ∈ (h.arrive ru p f).board.posted,
      ¬Outruns ru (h.arrive ru p f) x r := by
  intro x hx r hr
  rcases List.mem_append.mp hx with hx | hx
  · exact hs.not_posted x hx r (Rules.offer_kept_sublist.subset hr)
  · obtain ⟨hsrc, hmsg, hserved⟩ := mem_arrive_log hx
    rintro ⟨hprec, hadm⟩
    rw [hsrc, hmsg] at hadm
    have hafter := (Rules.offer_kept_after hserved hr hadm).sublist hs.posted
    exact hafter.asymm hs.asked_nodup hprec

omit hfresh in
theorem Sound.arrive_not_served_later :
    (h.arrive ru p f).log.Pairwise fun x y => ¬Outruns ru (h.arrive ru p f) x y.req := by
  refine List.pairwise_append.mpr ⟨hs.not_served_later, ?_, ?_⟩
  · refine List.pairwise_map.mpr ?_
    have hsub : (ru.offer p f h.board.posted).served.Sublist h.asked :=
      Rules.offer_served_sublist.trans hs.posted
    refine (Precedes.pairwise_of_sublist hsub).imp ?_
    exact fun hprec hout => hprec.asymm hs.asked_nodup hout.1
  · intro x hx y hy
    obtain ⟨-, -, hserved⟩ := mem_arrive_log hy
    exact hs.not_posted x hx y.req (Rules.offer_served_sublist.subset hserved)

theorem Sound.arrive : Sound ru (h.arrive ru p f) where
  apart := hs.apart.arrive p f
  arrived_nodup := hs.arrive_nodup hfresh
  asked_nodup := hs.asked_nodup
  waiting := hs.arrive_waiting
  posted := Rules.offer_kept_sublist.trans hs.posted
  log_asked x hx := by
    rcases List.mem_append.mp hx with hx | hx
    · exact hs.log_asked x hx
    · obtain ⟨-, -, hserved⟩ := mem_arrive_log hx
      exact hs.posted.subset (Rules.offer_served_sublist.subset hserved)
  log_arrived x hx := by
    rcases List.mem_append.mp hx with hx | hx
    · exact mem_arrived_arrive (hs.log_arrived x hx)
    · obtain ⟨hsrc, hmsg, -⟩ := mem_arrive_log hx
      rw [hsrc, hmsg, arrived_arrive_self]
      exact List.mem_append_right _ List.mem_cons_self
  log_admits x hx := by
    rcases List.mem_append.mp hx with hx | hx
    · exact hs.log_admits x hx
    · obtain ⟨hsrc, hmsg, hserved⟩ := mem_arrive_log hx
      rw [hsrc, hmsg]
      exact Rules.offer_admits hserved
  conserved := hs.arrive_conserved
  served_once := hs.arrive_served_once
  not_waiting := hs.arrive_not_waiting hfresh
  not_later := hs.arrive_not_later hfresh
  not_posted := hs.arrive_not_posted
  not_served_later := hs.arrive_not_served_later

end Arrive

/-! ## A request is posted -/

variable (ru) in
inductive Posted (b : Board R F σ) (r : R) :
    Board R F σ → List (Pair R F σ) → Prop
  | waits (hw : ru.waits r) : Posted b r { b with posted := b.posted ++ [r] } []
  | leaves : Posted b r b []
  | takes {p : σ} {f : F} (hfind : (b.waiting p).find? (ru.fits r p) = some f)
      (hadm : ru.admits r p f) (ht : ru.takes r) :
      Posted b r
        { b with waiting := update b.waiting p ((b.waiting p).eraseP (ru.fits r p)) }
        [⟨r, p, f⟩]
  | looks {p : σ} {f : F} (hfind : (b.waiting p).find? (ru.fits r p) = some f)
      (hadm : ru.admits r p f) (ht : ¬ru.takes r) : Posted b r b [⟨r, p, f⟩]

variable (ru) in
theorem post_posted (b : Board R F σ) (order : List σ) (r : R) :
    Posted ru b r (b.post ru order r).1 (b.post ru order r).2 := by
  unfold Board.post
  cases hsearch : ru.search order r b.waiting with
  | none =>
      simp only
      split
      · exact .waits ‹_›
      · exact .leaves
  | some pf =>
      obtain ⟨hfind, hadm⟩ := Rules.search_eq_some hsearch
      simp only
      split
      · exact .takes hfind hadm ‹_›
      · exact .looks hfind hadm ‹_›

namespace Posted

variable {b b' : Board R F σ} {out : List (Pair R F σ)} {r : R}

theorem waiting_sublist (h : Posted ru b r b' out) (q : σ) :
    (b'.waiting q).Sublist (b.waiting q) := by
  cases h with
  | waits | leaves | looks => exact .refl _
  | @takes p =>
      simp only
      by_cases hq : q = p
      · subst hq
        rw [update_self]
        exact List.eraseP_sublist
      · rw [update_of_ne hq]

theorem out_eq_nil_or (h : Posted ru b r b' out) :
    out = [] ∧ (b'.posted = b.posted ∨ b'.posted = b.posted ++ [r]) ∨
      b'.posted = b.posted ∧ ∃ p f, out = [⟨r, p, f⟩] ∧
        (b.waiting p).find? (ru.fits r p) = some f ∧ ru.admits r p f := by
  cases h with
  | waits => exact .inl ⟨rfl, .inr rfl⟩
  | leaves => exact .inl ⟨rfl, .inl rfl⟩
  | takes hfind hadm => exact .inr ⟨rfl, _, _, rfl, hfind, hadm⟩
  | looks hfind hadm => exact .inr ⟨rfl, _, _, rfl, hfind, hadm⟩

theorem posted_sublist (h : Posted ru b r b' out) :
    b'.posted.Sublist (b.posted ++ [r]) := by
  rcases h.out_eq_nil_or with ⟨-, h | h⟩ | ⟨h, -⟩
  · exact h ▸ List.sublist_append_left _ _
  · exact h ▸ .refl _
  · exact h ▸ List.sublist_append_left _ _

theorem mem_out (h : Posted ru b r b' out) {x : Pair R F σ} (hx : x ∈ out) :
    x.req = r ∧ (b.waiting x.src).find? (ru.fits r x.src) = some x.msg ∧
      ru.admits x.req x.src x.msg := by
  rcases h.out_eq_nil_or with ⟨hout, -⟩ | ⟨-, p, f, hout, hfind, hadm⟩
  · rw [hout] at hx
    cases hx
  · rw [hout] at hx
    cases List.mem_singleton.mp hx
    exact ⟨rfl, hfind, hadm⟩

theorem waiting_perm (h : Posted ru b r b' out) (q : σ) :
    (b.waiting q).Perm (b'.waiting q ++ taken ru q out) := by
  cases h with
  | waits | leaves => simp [taken]
  | looks _ _ ht => simp [taken, ht]
  | @takes p f hfind _ ht =>
      by_cases hq : q = p
      · subst hq
        have hperm := perm_eraseP_of_find? hfind
        simpa [taken, ht] using hperm.trans (List.perm_append_singleton f _).symm
      · simp [taken, update_of_ne hq, Ne.symm hq]

end Posted

section Post

variable {order : List σ} {r : R}

theorem mem_post_out {x : Pair R F σ} (hx : x ∈ (h.board.post ru order r).2) :
    x.req = r ∧ (h.board.waiting x.src).find? (ru.fits r x.src) = some x.msg ∧
      ru.admits x.req x.src x.msg :=
  (post_posted ru h.board order r).mem_out hx

variable (hs : Sound ru h) (hfresh : r ∉ h.asked)
include hs hfresh

theorem Sound.not_outruns_post {x : Pair R F σ} (hx : x ∈ h.log) :
    ¬Outruns ru (h.post ru order r) x r := by
  rintro ⟨hprec, -⟩
  have hne : x.req ≠ r := fun h' => hfresh (h' ▸ hs.log_asked x hx)
  exact hfresh (hprec.of_concat hne).left_mem

theorem Sound.outruns_of_post {x : Pair R F σ} (hx : x ∈ h.log) {r' : R}
    (hout : Outruns ru (h.post ru order r) x r') : Outruns ru h x r' :=
  ⟨hout.1.of_concat fun h' => hfresh (h' ▸ hs.log_asked x hx), hout.2⟩

omit hfresh in
theorem Sound.post_conserved (q : σ) :
    (h.arrived q).Perm
      ((h.board.post ru order r).1.waiting q ++ taken ru q (h.post ru order r).log) := by
  have hwait := (post_posted ru h.board order r).waiting_perm q
  simp only [History.post, taken_append]
  calc (h.arrived q).Perm (h.board.waiting q ++ taken ru q h.log) := hs.conserved q
    _ |>.Perm ((h.board.post ru order r).1.waiting q ++
        taken ru q (h.board.post ru order r).2 ++ taken ru q h.log) := hwait.append_right _
    _ |>.Perm _ := by
        rw [List.append_assoc]
        exact List.perm_append_comm.append_left _

theorem Sound.post_served_once :
    ((h.post ru order r).log.map (·.req) ++ (h.post ru order r).board.posted).Nodup := by
  have hnew : r ∉ h.log.map (·.req) ++ h.board.posted := by
    rw [List.mem_append, not_or]
    refine ⟨fun hmem => ?_, fun hmem => hfresh (hs.posted.subset hmem)⟩
    obtain ⟨x, hx, rfl⟩ := List.mem_map.mp hmem
    exact hfresh (hs.log_asked x hx)
  have hcons := List.nodup_cons.mpr ⟨hnew, hs.served_once⟩
  rcases (post_posted ru h.board order r).out_eq_nil_or with
    ⟨hout, hposted | hposted⟩ | ⟨hposted, p, f, hout, -⟩
  · simpa [History.post, hout, hposted] using hs.served_once
  · simp only [History.post, hout, hposted, List.append_nil, ← List.append_assoc]
    exact List.nodup_append_comm.mp hcons
  · simp only [History.post, hout, hposted, List.map_append, List.map_cons, List.map_nil,
      List.append_assoc, List.singleton_append]
    exact List.perm_middle.nodup_iff.mpr hcons

omit hfresh in
theorem Sound.post_not_waiting :
    ∀ x ∈ (h.post ru order r).log, ∀ g ∈ (h.post ru order r).board.waiting x.src,
      ¬Overtakes ru (h.post ru order r) x g := by
  intro x hx g hg
  have hold : g ∈ h.board.waiting x.src :=
    ((post_posted ru h.board order r).waiting_sublist x.src).subset hg
  rcases List.mem_append.mp hx with hx | hx
  · exact hs.not_waiting x hx g hold
  · obtain ⟨hreq, hfind, -⟩ := mem_post_out hx
    rintro ⟨-, hprec, hadm⟩
    have hfits : ru.fits r x.src g := by
      rw [hreq] at hadm
      simp only [Rules.admits, Bool.and_eq_true] at hadm
      exact hadm.2
    exact not_precedes_of_find? (hs.arrived_nodup x.src) (hs.waiting x.src) hfind hold
      hfits hprec

omit hfresh in
theorem Sound.post_not_later :
    (h.post ru order r).log.Pairwise fun x y =>
      ru.takes y.req → y.src = x.src → ¬Overtakes ru (h.post ru order r) x y.msg := by
  refine List.pairwise_append.mpr ⟨hs.not_later, ?_, ?_⟩
  · rcases (post_posted ru h.board order r).out_eq_nil_or with
      ⟨hout, -⟩ | ⟨-, p, f, hout, -⟩
    · simp [hout]
    · simp [hout]
  · intro x hx y hy _ hsrc
    have hmem := List.mem_of_find?_eq_some (mem_post_out hy).2.1
    exact hs.not_waiting x hx y.msg (hsrc ▸ hmem)

theorem Sound.post_not_posted :
    ∀ x ∈ (h.post ru order r).log, ∀ r' ∈ (h.post ru order r).board.posted,
      ¬Outruns ru (h.post ru order r) x r' := by
  intro x hx r' hr'
  have hr'old := (post_posted ru h.board order r).posted_sublist.subset hr'
  rcases List.mem_append.mp hx with hx | hx
  · rcases List.mem_append.mp hr'old with hold | hnew
    · exact fun hout => hs.not_posted x hx r' hold (hs.outruns_of_post hfresh hx hout)
    · rw [List.mem_singleton.mp hnew]
      exact hs.not_outruns_post hfresh hx
  · obtain ⟨hreq, hfind, -⟩ := mem_post_out hx
    rintro ⟨hprec, hadm⟩
    rcases List.mem_append.mp hr'old with hold | hnew
    · exact hs.apart r' hold x.src x.msg (List.mem_of_find?_eq_some hfind) hadm
    · rw [List.mem_singleton.mp hnew, hreq] at hprec
      have hnodup : (h.asked ++ [r]).Nodup :=
        List.nodup_append_comm.mp (List.nodup_cons.mpr ⟨hfresh, hs.asked_nodup⟩)
      exact Precedes.irrefl hnodup hprec

theorem Sound.post_not_served_later :
    (h.post ru order r).log.Pairwise fun x y =>
      ¬Outruns ru (h.post ru order r) x y.req := by
  refine List.pairwise_append.mpr ⟨?_, ?_, ?_⟩
  · refine hs.not_served_later.imp_of_mem ?_
    intro x y hx _ hxy hout
    exact hxy (hs.outruns_of_post hfresh hx hout)
  · rcases (post_posted ru h.board order r).out_eq_nil_or with
      ⟨hout, -⟩ | ⟨-, p, f, hout, -⟩
    · simp [hout]
    · simp [hout]
  · intro x hx y hy
    rw [(mem_post_out hy).1]
    exact hs.not_outruns_post hfresh hx

theorem Sound.post (hcovers : h.board.Covers ru order r) :
    Sound ru (h.post ru order r) where
  apart := hs.apart.post hcovers
  arrived_nodup := hs.arrived_nodup
  asked_nodup :=
    List.nodup_append_comm.mp (List.nodup_cons.mpr ⟨hfresh, hs.asked_nodup⟩)
  waiting q := ((post_posted ru h.board order r).waiting_sublist q).trans (hs.waiting q)
  posted := (post_posted ru h.board order r).posted_sublist.trans
    (hs.posted.append_right [r])
  log_asked x hx := by
    rcases List.mem_append.mp hx with hx | hx
    · exact List.mem_append_left _ (hs.log_asked x hx)
    · exact List.mem_append_right _ (List.mem_singleton.mpr (mem_post_out hx).1)
  log_arrived x hx := by
    rcases List.mem_append.mp hx with hx | hx
    · exact hs.log_arrived x hx
    · exact (hs.waiting x.src).subset (List.mem_of_find?_eq_some (mem_post_out hx).2.1)
  log_admits x hx := by
    rcases List.mem_append.mp hx with hx | hx
    · exact hs.log_admits x hx
    · exact (mem_post_out hx).2.2
  conserved := hs.post_conserved
  served_once := hs.post_served_once hfresh
  not_waiting := hs.post_not_waiting
  not_later := hs.post_not_later
  not_posted := hs.post_not_posted hfresh
  not_served_later := hs.post_not_served_later hfresh

end Post

/-! ## Runs -/

theorem Sound.cancel [DecidableEq R] (hs : Sound ru h) (r : R) : Sound ru (h.cancel r) :=
  { hs with
    apart := hs.apart.cancel r
    posted := List.erase_sublist.trans hs.posted
    served_once := hs.served_once.sublist (List.erase_sublist.append_left _)
    not_posted := fun x hx r' hr' => hs.not_posted x hx r' (List.erase_sublist.subset hr') }

theorem Step.sound [DecidableEq R] (hstep : Step ru h h') (hs : Sound ru h) :
    Sound ru h' := by
  cases hstep with
  | arrive p f hfresh => exact hs.arrive hfresh
  | post order r hcovers hfresh => exact hs.post hfresh hcovers
  | cancel r => exact hs.cancel r

theorem Reachable.sound [DecidableEq R] (hr : Reachable ru h) : Sound ru h := by
  induction hr with
  | refl => exact .init
  | tail _ hstep ih => exact hstep.sound ih

def Answered (ru : Rules R F σ) (h : History R F σ) : Prop :=
  ∀ r ∈ h.asked, ru.waits r →
    r ∈ h.log.map (·.req) ∨ r ∈ h.board.posted ∨ r ∈ h.cancelled

theorem Answered.arrive (ha : Answered ru h) (p : σ) (f : F) :
    Answered ru (h.arrive ru p f) := by
  intro r hr hwaits
  simp only [History.arrive, Board.arrive, List.map_append, List.map_map]
  rcases ha r hr hwaits with hlog | hposted | hcancelled
  · exact .inl (List.mem_append_left _ hlog)
  · have hoffer : r ∈ (ru.offer p f h.board.posted).served ++
        (ru.offer p f h.board.posted).kept := Rules.offer_perm.mem_iff.mpr hposted
    rcases List.mem_append.mp hoffer with hserved | hkept
    · refine .inl (List.mem_append_right _ ?_)
      simpa using hserved
    · exact .inr (.inl hkept)
  · exact .inr (.inr hcancelled)

theorem Answered.post (ha : Answered ru h) (order : List σ) (r : R) :
    Answered ru (h.post ru order r) := by
  have hpost := post_posted ru h.board order r
  intro r' hr' hwaits
  simp only [History.post, List.map_append]
  rcases List.mem_append.mp hr' with hr' | hr'
  · rcases ha r' hr' hwaits with hlog | hposted | hcancelled
    · exact .inl (List.mem_append_left _ hlog)
    · refine .inr (.inl ?_)
      rcases hpost.out_eq_nil_or with ⟨-, heq | heq⟩ | ⟨heq, -⟩
      · exact heq ▸ hposted
      · exact heq ▸ List.mem_append_left _ hposted
      · exact heq ▸ hposted
    · exact .inr (.inr hcancelled)
  · cases List.mem_singleton.mp hr'
    unfold Board.post
    split
    · rw [if_pos hwaits]
      exact .inr (.inl (List.mem_append_right _ (List.mem_singleton_self r)))
    · exact .inl (List.mem_append_right _ (List.mem_singleton_self r))

omit [DecidableEq σ] in
theorem Answered.cancel [DecidableEq R] (ha : Answered ru h) (r : R) :
    Answered ru (h.cancel r) := by
  intro r' hr' hwaits
  rcases ha r' hr' hwaits with hlog | hposted | hcancelled
  · exact .inl hlog
  · by_cases heq : r' = r
    · exact .inr (.inr (List.mem_append_right _ (List.mem_singleton.mpr heq)))
    · exact .inr (.inl ((List.mem_erase_of_ne heq).mpr hposted))
  · exact .inr (.inr (List.mem_append_left _ hcancelled))

theorem Reachable.answered [DecidableEq R] (hr : Reachable ru h) : Answered ru h := by
  induction hr with
  | refl =>
      intro r hr
      cases hr
  | tail _ hstep ih =>
      cases hstep with
      | arrive p f => exact ih.arrive p f
      | post order r => exact ih.post order r
      | cancel r => exact ih.cancel r

/-- If a request took a message, then every older message of the same source
that it accepts too was taken before. -/
theorem Sound.not_overtaken (hs : Sound ru h) {l₁ l₂ : List (Pair R F σ)}
    {x : Pair R F σ} (hlog : h.log = l₁ ++ x :: l₂) {g : F}
    (hover : Overtakes ru h x g) : ∃ y ∈ l₁, ru.takes y.req ∧ y.src = x.src ∧ y.msg = g := by
  have hx : x ∈ h.log := by simp [hlog]
  have harrived : g ∈ h.arrived x.src := hover.2.1.left_mem
  rcases List.mem_append.mp ((hs.conserved x.src).mem_iff.mp harrived) with hw | ht
  · exact absurd hover (hs.not_waiting x hx g hw)
  · obtain ⟨y, hy, rfl⟩ := List.mem_map.mp ht
    obtain ⟨hylog, hyprop⟩ := List.mem_filter.mp hy
    have hy' : ru.takes y.req ∧ y.src = x.src := by simpa using hyprop
    rw [hlog] at hylog
    rcases List.mem_append.mp hylog with h₁ | h₂
    · exact ⟨y, h₁, hy'.1, hy'.2, rfl⟩
    · rcases List.mem_cons.mp h₂ with rfl | h₂
      · exact absurd hover.2.1 (Precedes.irrefl (hs.arrived_nodup _))
      · have hpair := hs.not_later
        rw [hlog] at hpair
        have hxy := (List.pairwise_cons.mp (List.pairwise_append.mp hpair).2.1).1 y h₂
        exact absurd hover (hxy hy'.1 hy'.2)

end History

end ProgPara.Matching
