import ProgPara.Ob1.Proofs.Conservation

/-!
# One channel

`Channel` relates the messages sent on a channel with what its receiver has
done of them: the first `handed` of them went through matching, in order, and
the others are in flight or wait in the ring.  It holds as long as no message
gets `2 ^ 16 - 1` ahead of the one expected or meets the rollover of the ring.
-/

namespace ProgPara.Ob1

open Sequence

variable {M : Type*}

def Wired (sent : List (Fragment M)) : Prop :=
  ∀ frag ∈ sent, frag.hdrSeq = wire (frag.segments.1 + 1)

structure Channel (sent flying : List (Fragment M)) (handed : Nat)
    (s : Sequencing (Nat × M)) (checks : Nat) : Prop where
  wired : Wired sent
  expected : s.expected = wire (handed + 1)
  ordered : Ordered s.expected s.cantMatch
  unhanded : (sent.drop handed).Perm (flying ++ frags s.cantMatch)
  window : ∀ frag ∈ frags s.cantMatch, frag.segments.1 < handed + 65535
  noticed : checks = 0 → ∀ frag ∈ frags s.cantMatch, frag.hdrSeq ≠ s.expected

theorem Numbered.getElem? {src : Nat} {sent : List (Fragment M)} (h : Numbered src sent)
    {frag : Fragment M} (hfrag : frag ∈ sent) : sent[frag.segments.1]? = some frag := by
  obtain ⟨k, hk, rfl⟩ := List.getElem_of_mem hfrag
  have hget := List.getElem?_eq_getElem hk
  rwa [(h _ _ hget).1]

theorem Numbered.inj {src : Nat} {sent : List (Fragment M)} (h : Numbered src sent)
    {f g : Fragment M} (hf : f ∈ sent) (hg : g ∈ sent)
    (hfg : f.segments.1 = g.segments.1) : f = g := by
  have hf' := h.getElem? hf
  rw [hfg, h.getElem? hg] at hf'
  exact (Option.some_inj.mp hf').symm

theorem Numbered.le_of_mem_drop {src handed : Nat} {sent : List (Fragment M)}
    (h : Numbered src sent) {frag : Fragment M} (hfrag : frag ∈ sent.drop handed) :
    handed ≤ frag.segments.1 := by
  obtain ⟨k, hk, rfl⟩ := List.getElem_of_mem hfrag
  rw [List.length_drop] at hk
  rw [List.getElem_drop, (h _ _ (List.getElem?_eq_getElem (by omega))).1]
  omega

namespace Channel

variable {sent flying flying' : List (Fragment M)} {src handed checks : Nat}
  {s : Sequencing (Nat × M)} {frag : Fragment M}

theorem init (checks : Nat) : Channel ([] : List (Fragment M)) [] 0 ⟨1, []⟩ checks where
  wired _ h := by cases h
  expected := rfl
  ordered := .nil _
  unhanded := .nil
  window _ h := by cases h
  noticed _ _ h := by cases h

theorem perm (hc : Channel sent flying handed s checks) (h : flying.Perm flying') :
    Channel sent flying' handed s checks :=
  { hc with unhanded := hc.unhanded.trans (h.append_right _) }

theorem send (hc : Channel sent flying handed s checks) (hle : handed ≤ sent.length)
    (hwire : frag.hdrSeq = wire (frag.segments.1 + 1)) :
    Channel (sent ++ [frag]) (flying ++ [frag]) handed s checks where
  wired f hf := by
    rcases List.mem_append.mp hf with hf | hf
    · exact hc.wired f hf
    · exact List.mem_singleton.mp hf ▸ hwire
  expected := hc.expected
  ordered := hc.ordered
  unhanded := by
    rw [List.drop_append_of_le_length hle, List.append_assoc]
    refine (hc.unhanded.append_right [frag]).trans ?_
    rw [List.append_assoc]
    exact List.perm_append_comm.append_left _
  window := hc.window
  noticed := hc.noticed

section Deliver

variable (hc : Channel sent flying handed s checks) (hn : Numbered src sent)
include hc hn

theorem unhanded_nodup : (flying ++ frags s.cantMatch).Nodup :=
  hc.unhanded.nodup_iff.mp (hn.nodup.sublist (List.drop_sublist handed sent))

omit hn in
theorem mem_sent (hfrag : frag ∈ flying ++ frags s.cantMatch) : frag ∈ sent :=
  List.drop_subset handed sent (hc.unhanded.mem_iff.mpr hfrag)

theorem le_number (hfrag : frag ∈ flying ++ frags s.cantMatch) :
    handed ≤ frag.segments.1 :=
  hn.le_of_mem_drop (hc.unhanded.mem_iff.mpr hfrag)

/-- Inside the window the sequence numbers tell apart what was not handed on. -/
theorem seq_inj {f g : Fragment M} (hf : f ∈ flying ++ frags s.cantMatch)
    (hg : g ∈ flying ++ frags s.cantMatch) (hfw : f.segments.1 < handed + 65535)
    (hgw : g.segments.1 < handed + 65535) (hseq : f.hdrSeq = g.hdrSeq) : f = g := by
  have hfs := hc.mem_sent hf
  have hgs := hc.mem_sent hg
  have hfl := hc.le_number hn hf
  have hgl := hc.le_number hn hg
  rw [hc.wired f hfs, hc.wired g hgs] at hseq
  have hnumber := (wire_inj (m := handed) (by omega) (by omega) (by omega) (by omega)).mp hseq
  exact hn.inj hfs hgs (by omega)

theorem seq_eq_expected (hfrag : frag ∈ flying ++ frags s.cantMatch)
    (hwindow : frag.segments.1 < handed + 65535) :
    frag.hdrSeq = s.expected ↔ frag.segments.1 = handed := by
  have hle := hc.le_number hn hfrag
  rw [hc.wired frag (hc.mem_sent hfrag), hc.expected]
  have hinj := wire_inj (m := handed) (j := frag.segments.1 + 1) (k := handed + 1)
    (by omega) (by omega) (by omega) (by omega)
  rw [hinj]
  omega

theorem handed_getElem? (hfrag : frag ∈ flying ++ frags s.cantMatch)
    (hnumber : frag.segments.1 = handed) : sent[handed]? = some frag :=
  hnumber ▸ hn.getElem? (hc.mem_sent hfrag)

omit hn in
/-- The window seen from the messages that are not handed on: the oldest of them
is the next in turn. -/
theorem lt_of_forall (hn : Numbered src sent) (hfrag : frag ∈ flying ++ frags s.cantMatch)
    {n : Nat} (h : ∀ g ∈ flying ++ frags s.cantMatch, n < g.segments.1 + 65535) :
    n < handed + 65535 := by
  have hdrop := hc.unhanded.mem_iff.mpr hfrag
  have hlt : handed < sent.length := by
    by_contra hge
    rw [List.drop_eq_nil_of_le (by omega)] at hdrop
    cases hdrop
  have hget := List.getElem?_eq_getElem hlt
  have hnext : sent[handed] ∈ flying ++ frags s.cantMatch := by
    refine hc.unhanded.mem_iff.mp ?_
    rw [List.drop_eq_getElem_cons hlt]
    exact List.mem_cons_self
  have hn' := h _ hnext
  rwa [(hn _ _ hget).1] at hn'

theorem queue (hflying : flying.Perm (flying' ++ [frag]))
    (hseq : frag.hdrSeq ≠ s.expected) (hwindow : frag.segments.1 < handed + 65535)
    (hroll : ¬RollsOver s.expected frag.hdrSeq s.cantMatch) :
    Channel sent flying' handed
      ⟨s.expected, appendFragToOrderedList s.cantMatch frag s.expected⟩ checks := by
  have happend := appendFragToOrderedList_perm s.cantMatch frag s.expected
  have hfly : frag ∈ flying := hflying.mem_iff.mpr (by simp)
  have hfrag : frag ∈ flying ++ frags s.cantMatch := List.mem_append_left _ hfly
  have hle := hc.le_number hn hfrag
  refine ⟨hc.wired, hc.expected, ?_, ?_, ?_, ?_⟩
  · refine hc.ordered.append hseq ?_ ?_ hroll
    · intro f hf heq
      have hf' := List.mem_append_right flying hf
      have hsame := hc.seq_inj hn hf' hfrag (hc.window f hf) hwindow heq
      have hdisj := (List.nodup_append.mp (hc.unhanded_nodup hn)).2.2
      exact hdisj frag hfly f hf hsame.symm
    · rw [hc.wired frag (hc.mem_sent hfrag), hc.expected, ← wire_succ]
      intro heq
      have hinj := wire_inj (m := handed + 1) (j := frag.segments.1 + 1 + 1) (k := handed + 1)
        (by omega) (by omega) (by omega) (by omega)
      have hnumber := hinj.mp heq
      omega
  · refine hc.unhanded.trans ((hflying.append_right _).trans ?_)
    rw [List.append_assoc]
    exact happend.symm.append_left _
  · intro f hf
    rcases List.mem_cons.mp (happend.mem_iff.mp hf) with rfl | hf
    · exact hwindow
    · exact hc.window f hf
  · intro hchecks f hf
    rcases List.mem_cons.mp (happend.mem_iff.mp hf) with rfl | hf
    · exact hseq
    · exact hc.noticed hchecks f hf

theorem hand (hflying : flying.Perm (flying' ++ [frag]))
    (hseq : frag.hdrSeq = s.expected) (hwindow : frag.segments.1 < handed + 65535) :
    Channel sent flying' (handed + 1) ⟨s.expected + 1, s.cantMatch⟩ (checks + 1) := by
  have hfly : frag ∈ flying := hflying.mem_iff.mpr (by simp)
  have hfrag : frag ∈ flying ++ frags s.cantMatch := List.mem_append_left _ hfly
  have hnumber := (hc.seq_eq_expected hn hfrag hwindow).mp hseq
  refine ⟨hc.wired, ?_, ?_, ?_, ?_, ?_⟩
  · rw [hc.expected, ← wire_succ]
  · refine hc.ordered.succ ?_
    intro f hf heq
    have hf' := List.mem_append_right flying hf
    have hsame := hc.seq_inj hn hf' hfrag (hc.window f hf) hwindow (heq.trans hseq.symm)
    have hdisj := (List.nodup_append.mp (hc.unhanded_nodup hn)).2.2
    exact hdisj frag hfly f hf hsame.symm
  · obtain ⟨hlt, hget⟩ := List.getElem?_eq_some_iff.mp (hc.handed_getElem? hn hfrag hnumber)
    have hdrop := hc.unhanded
    rw [List.drop_eq_getElem_cons hlt, hget] at hdrop
    have hcons : (frag :: sent.drop (handed + 1)).Perm
        (frag :: (flying' ++ frags s.cantMatch)) := by
      refine hdrop.trans ((hflying.append_right _).trans ?_)
      rw [List.append_assoc, List.singleton_append]
      exact List.perm_middle
    exact hcons.cons_inv
  · intro f hf
    have hf' := hc.window f hf
    change f.segments.1 < handed + 1 + 65535
    omega
  · intro h
    omega

theorem check {ring : List (Run (Nat × M))} (hchecks : checks ≠ 0)
    (hcheck : checkCantmatchForMatch s.expected s.cantMatch = some (frag, ring)) :
    sent[handed]? = some frag ∧
      Channel sent flying (handed + 1) ⟨s.expected + 1, ring⟩ checks := by
  have hchecked := checkCantmatch_checked hc.ordered
  rw [hcheck] at hchecked
  cases hchecked with
  | found hseq hfrags hordered =>
      have hmem : frag ∈ frags s.cantMatch := by
        rw [hfrags]
        exact List.mem_cons_self
      have hfrag := List.mem_append_right flying hmem
      have hnumber := (hc.seq_eq_expected hn hfrag (hc.window frag hmem)).mp hseq
      have hnext := hc.handed_getElem? hn hfrag hnumber
      refine ⟨hnext, hc.wired, ?_, hordered, ?_, ?_, fun h => absurd h hchecks⟩
      · rw [hc.expected, ← wire_succ]
      · obtain ⟨hlt, hget⟩ := List.getElem?_eq_some_iff.mp hnext
        have hdrop := hc.unhanded
        rw [List.drop_eq_getElem_cons hlt, hget, hfrags] at hdrop
        exact (hdrop.trans List.perm_middle).cons_inv
      · intro f hf
        have hf' := hc.window f (hfrags ▸ List.mem_cons_of_mem frag hf)
        omega

omit hn in
/-- A check that finds nothing leaves nothing to be found. -/
theorem check_none (hcheck : checkCantmatchForMatch s.expected s.cantMatch = none)
    (checks' : Nat) : Channel sent flying handed s checks' := by
  have hchecked := checkCantmatch_checked hc.ordered
  rw [hcheck] at hchecked
  cases hchecked with
  | missing hmissing => exact { hc with noticed := fun _ => hmissing }

/-- When nothing is in flight and no thread is to look any more, everything sent
was handed on. -/
theorem settled (hflying : flying = []) (hchecks : checks = 0) (hle : handed ≤ sent.length) :
    handed = sent.length ∧ frags s.cantMatch = [] := by
  have hperm := hc.unhanded
  rw [hflying, List.nil_append] at hperm
  have hhanded : handed = sent.length := by
    by_contra hne
    have hlt : handed < sent.length := by omega
    have hnext : sent[handed] ∈ frags s.cantMatch := by
      refine hperm.mem_iff.mp ?_
      rw [List.drop_eq_getElem_cons hlt]
      exact List.mem_cons_self
    apply hc.noticed hchecks _ hnext
    have hnumber := (hn _ _ (List.getElem?_eq_getElem hlt)).1
    have hmem := List.mem_append_right flying hnext
    exact (hc.seq_eq_expected hn hmem (hc.window _ hnext)).mpr hnumber
  rw [hhanded, List.drop_length] at hperm
  exact ⟨hhanded, hperm.symm.eq_nil⟩

end Deliver

end Channel

end ProgPara.Ob1
