import ProgPara.Example.Proofs.Etapes
import ProgPara.Network.Buffering

/-!
# The job refines the protocol

`Represente` relates a configuration of the job, nobody being inside a send, to
the progress it amounts to.  Every buffered step of the job is at most one move
of the protocol, so every reachable state of the job represents a reachable
progress once the waiting senders are taken to be past their send.
-/

namespace ProgPara.Example

open Function Relation Memory Network

variable {n : ℕ}

structure Pere.Conforme (s : Pere (Proc n)) (v : Vue n) : Prop where
  coherent : s.Coherent
  lance : s.lance = v.lance
  envois : s.envois = v.envois
  receptions : s.receptions = v.receptions

structure Fils.Conforme (r : Fin (n + 1)) (f : Fils (Proc n)) (v : Vue n) : Prop where
  coherent : f.Coherent r
  recu : f.recu = v.recu r
  envoye : f.envoye = v.envoye r

variable {frames : Proc n → Frame} {v v' : Vue n}

theorem Pere.Conforme.etape {s : Pere (Proc n)} (hs : s.Conforme v)
    (frames : Proc n → Frame) :
    s.Etape ((systeme n frames).act .pere s) :=
  hs.coherent.etape (hs.envois ▸ v.envois_le) _

theorem Fils.Conforme.etape {r : Fin (n + 1)} {f : Fils (Proc n)} (hf : f.Conforme r v)
    (frames : Proc n → Frame) :
    f.Etape (frames (.fils r)) r ((systeme n frames).act (.fils r) f) :=
  hf.coherent.etape _

/-- Configuration `c` has the progress `v`. -/
structure Represente (frames : Proc n → Frame) (c : Configuration n) (v : Vue n) :
    Prop where
  pere : ∃ s : Pere (Proc n), c.status .pere = .ready s ∧ s.Conforme v
  absents : v.lance = false → ∀ r, c.status (.fils r) = .absent
  fils : v.lance = true →
    ∀ r, ∃ f : Fils (Proc n), c.status (.fils r) = .ready f ∧ f.Conforme r v
  sent : c.sent = v.sent frames
  recd : c.recd = v.recd frames
  conserved : Program.Config.Conserved c

namespace Represente

variable {c : Configuration n} {r : Fin (n + 1)}

theorem chan_fils (hc : Represente frames c v) (r : Fin (n + 1)) :
    c.chan .pere (.fils r) =
      if r < v.envois ∧ v.recu r = false then [temperatureDe r] else [] := by
  have h := hc.conserved .pere (.fils r)
  rw [hc.sent, hc.recd] at h
  cases hr : v.recu r with
  | true =>
      have hlt := v.lt_envois hr
      simp only [Vue.sent, Vue.recd, hr, hlt, if_true, List.cons_append,
        List.nil_append, List.cons.injEq, true_and] at h
      simp [← h]
  | false =>
      simp only [Vue.sent, Vue.recd, hr, Bool.false_eq_true, if_false,
        List.nil_append] at h
      simp [← h]

theorem chan_pere (hc : Represente frames c v) (r : Fin (n + 1)) :
    c.chan (.fils r) .pere =
      if v.envoye r = true ∧ v.receptions ≤ r then [acquittement (frames (.fils r))]
      else [] := by
  have h := hc.conserved (.fils r) .pere
  rw [hc.sent, hc.recd] at h
  by_cases hr : r < v.receptions
  · have hs := v.envoye_of_lt hr
    simp only [Vue.sent, Vue.recd, hr, hs, if_true, List.cons_append,
      List.nil_append, List.cons.injEq, true_and] at h
    simp [← h, Nat.not_le.mpr hr]
  · simp only [Vue.sent, Vue.recd, hr, if_false, List.nil_append] at h
    simp [← h, Nat.not_lt.mp hr]

theorem pas_pere {s : Pere (Proc n)} {t : Transfer (Proc n) Mpi.Message}
    (hc : Represente frames c v) (hs : s.Conforme v') (hl : v'.lance = v.lance)
    (hrecu : v'.recu = v.recu) (henvoye : v'.envoye = v.envoye)
    (hsent : t.sent .pere (v.sent frames) = v'.sent frames)
    (hrecd : t.recd .pere (v.recd frames) = v'.recd frames)
    (hcons : Program.Config.Conserved
      ((systeme n frames).apply .pere { next := .ready s, transfer := t } c)) :
    Represente frames
      ((systeme n frames).apply .pere { next := .ready s, transfer := t } c) v' := by
  have hst (r : Fin (n + 1)) : ((systeme n frames).apply .pere
      { next := .ready s, transfer := t } c).status (.fils r) = c.status (.fils r) :=
    Program.apply_status_of_ne (by simp) _ _
  refine ⟨⟨s, Program.apply_status_self _ _ _ _, hs⟩, ?_, ?_, ?_, ?_, hcons⟩
  · intro h r
    rw [hst]
    exact hc.absents (hl ▸ h) r
  · intro h r
    rw [hst]
    obtain ⟨f, hf, hfv⟩ := hc.fils (hl ▸ h) r
    exact ⟨f, hf, hfv.coherent, by rw [hfv.recu, hrecu], by rw [hfv.envoye, henvoye]⟩
  · rw [← hsent, ← hc.sent]
    rfl
  · rw [← hrecd, ← hc.recd]
    rfl

theorem pas_fils {f : Fils (Proc n)} {t : Transfer (Proc n) Mpi.Message}
    (hc : Represente frames c v) (hl : v.lance = true) (hf : f.Conforme r v')
    (hl' : v'.lance = v.lance) (he : v'.envois = v.envois)
    (hr : v'.receptions = v.receptions)
    (hne : ∀ q, q ≠ r → v'.recu q = v.recu q ∧ v'.envoye q = v.envoye q)
    (hsent : t.sent (.fils r) (v.sent frames) = v'.sent frames)
    (hrecd : t.recd (.fils r) (v.recd frames) = v'.recd frames)
    (hcons : Program.Config.Conserved
      ((systeme n frames).apply (.fils r) { next := .ready f, transfer := t } c)) :
    Represente frames
      ((systeme n frames).apply (.fils r) { next := .ready f, transfer := t } c) v' := by
  have hst (p : Proc n) (hp : p ≠ .fils r) : ((systeme n frames).apply (.fils r)
      { next := .ready f, transfer := t } c).status p = c.status p :=
    Program.apply_status_of_ne hp _ _
  obtain ⟨s, hs, hsv⟩ := hc.pere
  refine ⟨⟨s, ?_, hsv.coherent, ?_, ?_, ?_⟩, ?_, ?_, ?_, ?_, hcons⟩
  · rw [hst _ (by simp), hs]
  · rw [hsv.lance, hl']
  · rw [hsv.envois, he]
  · rw [hsv.receptions, hr]
  · intro h
    rw [hl', hl] at h
    cases h
  · intro _ q
    rcases eq_or_ne q r with rfl | hq
    · exact ⟨f, Program.apply_status_self _ _ _ _, hf⟩
    · obtain ⟨hrecu, henvoye⟩ := hne q hq
      obtain ⟨f', hf', hfv'⟩ := hc.fils hl q
      refine ⟨f', ?_, hfv'.coherent, by rw [hfv'.recu, hrecu],
        by rw [hfv'.envoye, henvoye]⟩
      rw [hst _ (by simpa using hq), hf']
  · rw [← hsent, ← hc.sent]
    rfl
  · rw [← hrecd, ← hc.recd]
    rfl

theorem lancer {s : Pere (Proc n)} (hc : Represente frames c v) (hl : v.lance = false)
    (hs : s.Conforme v.lancer)
    (hcons : Program.Config.Conserved
      ((systeme n frames).apply .pere { next := .ready s, launches := true } c)) :
    Represente frames
      ((systeme n frames).apply .pere { next := .ready s, launches := true } c)
      v.lancer := by
  have hle (r : Fin (n + 1)) : v.envois ≤ r := by
    rw [Vue.envois_eq_zero hl]
    exact Nat.zero_le _
  refine ⟨⟨s, Program.apply_status_self _ _ _ _, hs⟩, by simp [Vue.lancer], ?_,
    hc.sent, hc.recd, hcons⟩
  intro _ r
  have hrecu : v.recu r = false := Vue.recu_eq_false (hle r)
  have henvoye : v.envoye r = false := Vue.envoye_eq_false hrecu
  refine ⟨filsEntry (frames (.fils r)), ?_, filsEntry_coherent r _, hrecu.symm,
    henvoye.symm⟩
  rw [Program.apply_status_of_ne (by simp), if_pos rfl,
    Program.launch_of_absent (hc.absents hl r)]
  rfl

/-- A buffered step of the father is at most one move of the protocol. -/
theorem step_pere {e : Event (Proc n) Mpi.Message (Local n .pere)}
    (hc : Represente frames c v) (h : (systeme n frames).Offers true .pere c e) :
    ∃ v', ReflGen Vue.Pas v v' ∧
      Represente frames ((systeme n frames).apply .pere e c) v' := by
  obtain ⟨s, hs, hsv⟩ := hc.pere
  have hcons := h.conserved hc.conserved
  have hgives := (Program.offers_iff_gives hs).mp h
  have hetape := hsv.etape frames
  generalize (systeme n frames).act .pere s = a at hgives hetape
  cases hetape with
  | prologue hl hs' hl' =>
      cases hgives
      refine ⟨v, .refl, hc.pas_pere ⟨hs', ?_, ?_, ?_⟩ rfl rfl rfl rfl rfl hcons⟩
      · rw [hl', ← hsv.lance, hl]
      · rw [Pere.envois_of_not_lance hl', ← hsv.envois, Pere.envois_of_not_lance hl]
      · rw [Pere.receptions_of_not_lance hl', ← hsv.receptions,
          Pere.receptions_of_not_lance hl]
  | lancement hl hs' hl' he' hr' =>
      cases hgives
      have hlv : v.lance = false := by rw [← hsv.lance, hl]
      refine ⟨v.lancer, .single (.lancer hlv), hc.lancer hlv ⟨hs', hl', ?_, ?_⟩ hcons⟩
      · rw [he', ← Pere.envois_of_not_lance hl, hsv.envois]
        rfl
      · rw [hr', ← Pere.receptions_of_not_lance hl, hsv.receptions]
        rfl
  | envoi hl he hr hs' hl' he' hr' =>
      cases hgives
      rw [hsv.lance] at hl
      rw [hsv.envois] at he
      rw [hsv.receptions] at hr
      exact ⟨v.envoyer hl he hr, .single (.envoyer hl he hr),
        hc.pas_pere ⟨hs', hl'.trans hl.symm, he', hr'.trans hr.symm⟩ rfl rfl rfl
          (Vue.sent_envoyer frames hl he hr).symm rfl hcons⟩
  | erreur => cases hgives
  | @reception _ r hl he hr h4 hk =>
      cases hgives with
      | recv hinbox =>
          rw [hsv.lance] at hl
          rw [hsv.envois] at he
          rw [hsv.receptions] at hr
          rw [hc.chan_pere r] at hinbox
          split at hinbox
          · rename_i hvol
            cases hinbox
            obtain ⟨hs', hl', he', hr'⟩ := hk _ (length_acquittement _)
            exact ⟨v.encaisser he hr hvol.1 h4, .single (.encaisser he hr hvol.1 h4),
              hc.pas_pere ⟨hs', hl'.trans hl.symm, he'.trans he.symm, hr'⟩ rfl rfl rfl
                rfl (Vue.recd_encaisser frames he hr hvol.1 h4).symm hcons⟩
          · cases hinbox
  | fin => cases hgives

theorem step_fils {e : Event (Proc n) Mpi.Message (Local n (.fils r))}
    (hc : Represente frames c v) (h : (systeme n frames).Offers true (.fils r) c e) :
    ∃ v', ReflGen Vue.Pas v v' ∧
      Represente frames ((systeme n frames).apply (.fils r) e c) v' := by
  have hcons := h.conserved hc.conserved
  have hl : v.lance = true := by
    by_contra hl
    exact h.status_ne_absent (hc.absents (by simpa using hl) r)
  obtain ⟨f, hf, hfv⟩ := hc.fils hl r
  have hgives := (Program.offers_iff_gives hf).mp h
  have hetape := hfv.etape frames
  generalize (systeme n frames).act (.fils r) f = a at hgives hetape
  cases hetape with
  | prologue hr hf' hr' =>
      cases hgives
      refine ⟨v, .refl, hc.pas_fils hl ⟨hf', ?_, ?_⟩ rfl rfl rfl
        (fun _ _ => ⟨rfl, rfl⟩) rfl rfl hcons⟩
      · rw [hr', ← hfv.recu, hr]
      · rw [Fils.envoye_of_not_recu hr', ← hfv.envoye, Fils.envoye_of_not_recu hr]
  | reception _ hr hf' hr' hs' =>
      cases hgives with
      | recv hinbox =>
          have hs : f.envoye = false := Fils.envoye_of_not_recu hr
          rw [hfv.recu] at hr
          rw [hfv.envoye] at hs
          rw [hc.chan_fils r] at hinbox
          split at hinbox
          · rename_i hvol
            cases hinbox
            exact ⟨v.recevoir hvol.1, .single (.recevoir hvol.1 hr),
              hc.pas_fils hl ⟨hf', by simp [Vue.recevoir, hr'], hs'.trans hs.symm⟩
                rfl rfl rfl (fun q hq => ⟨by simp [Vue.recevoir, hq], rfl⟩)
                rfl (Vue.recd_recevoir frames hvol.1 hr).symm hcons⟩
          · cases hinbox
  | acquittement hr hs hf' hr' hs' =>
      cases hgives
      rw [hfv.recu] at hr
      rw [hfv.envoye] at hs
      exact ⟨v.acquitter hr, .single (.acquitter hr hs),
        hc.pas_fils hl ⟨hf', hr'.trans hr.symm, by simp [Vue.acquitter, hs']⟩
          rfl rfl rfl (fun q hq => ⟨rfl, by simp [Vue.acquitter, hq]⟩)
          (Vue.sent_acquitter frames hr hs).symm rfl hcons⟩
  | fin => cases hgives

end Represente

def Representable (frames : Proc n → Frame) (c : Configuration n) : Prop :=
  ∃ v, ReflTransGen Vue.Pas (.init n) v ∧ Represente frames c v

theorem represente_init (frames : Proc n → Frame) :
    Represente frames (systeme n frames).init.config (.init n) where
  pere := ⟨pereEntry (toString n) (frames .pere), rfl, pereEntry_coherent _, rfl, rfl, rfl⟩
  absents := fun _ _ => rfl
  fils := fun h => by cases h
  sent := (Vue.sent_init frames).symm
  recd := (Vue.recd_init frames).symm
  conserved := fun _ _ => rfl

theorem representable (frames : Proc n → Frame) :
    (systeme n frames).EagerInvariant (Representable frames) where
  init := ⟨.init n, .refl, represente_init frames⟩
  step := by
    rintro (_ | r) e c ⟨v, hv, hc⟩ he
    · obtain ⟨v', hv', hc'⟩ := hc.step_pere he
      exact ⟨v', hv.trans hv'.to_reflTransGen, hc'⟩
    · obtain ⟨v', hv', hc'⟩ := hc.step_fils he
      exact ⟨v', hv.trans hv'.to_reflTransGen, hc'⟩

/-- Every reachable state of the job, stopped or not, represents a reachable
progress of the protocol. -/
theorem refines {frames : Proc n → Frame} {modes : Set Bool}
    {g : Etat n} (h : (systeme n frames).Reachable modes g) :
    ∃ v, ReflTransGen Vue.Pas (.init n) v ∧ Represente frames g.config.settled v :=
  (representable frames).settled h

end ProgPara.Example
