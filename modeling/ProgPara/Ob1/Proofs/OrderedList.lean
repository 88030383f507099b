import ProgPara.Ob1.OrderedList
import Mathlib.Data.List.Range

/-!
# The order of the fragments that wait

`Ordered e` says that the ring, read from its head, lists its fragments by
their distance from the number `e` expected next.  Inserting keeps that order
except when the head has rolled over and the new fragment, which is nearer, is
not seen to be: `RollsOver` is exactly that case.  The fragment numbered `e` may
be in the ring itself, between the time the number was expected and the time a
thread looks for it.
-/

namespace ProgPara.Ob1

open Sequence

variable {M : Type*}

def Run.Consecutive (n : Run M) : Prop :=
  n.frags.map (·.hdrSeq.toNat) = List.range' n.seq n.frags.length

structure Ordered (e : UInt16) (queue : List (Run M)) : Prop where
  consecutive : ∀ n ∈ queue, n.Consecutive
  sorted : (frags queue).Pairwise fun a b => distance e a.hdrSeq < distance e b.hdrSeq

/-- The head has rolled over, and either the fragment numbered `s` rolled over
too and is to go before it, or it has not and lies no nearer to `e` than the
head when the rollover is forgotten. -/
def RollsOver (e s : UInt16) : List (Run M) → Prop
  | [] => False
  | head :: _ =>
      head.seq < e.toNat ∧
        (s.toNat + 1 < head.seq ∨
          e.toNat ≤ s.toNat ∧ e.toNat - head.seq ≤ s.toNat - e.toNat)

instance (e s : UInt16) (queue : List (Run M)) : Decidable (RollsOver e s queue) := by
  cases queue with
  | nil => exact inferInstanceAs (Decidable False)
  | cons => exact inferInstanceAs (Decidable (_ ∧ _))

/-! ## Fragments -/

@[simp] theorem Run.frags_merge (n next : Run M) :
    (n.merge next).frags = n.frags ++ next.frags := rfl

@[simp] theorem Run.merge_seq (n next : Run M) : (n.merge next).seq = n.seq := rfl

theorem mem_frags {queue : List (Run M)} {n : Run M} (hn : n ∈ queue) :
    n.frag ∈ frags queue :=
  List.mem_flatMap.mpr ⟨n, hn, List.mem_cons_self⟩

def Cursor.queue (c : Cursor M) : List (Run M) := c.before ++ c.node :: c.after

theorem searchBackward_queue (s d1 : UInt16) (rest : List (Run M)) (prior : Run M)
    (after : List (Run M)) :
    (searchBackward s d1 rest prior after).queue = rest.reverse ++ prior :: after := by
  induction rest generalizing d1 prior after with
  | nil => rfl
  | cons p rest ih =>
      simp only [searchBackward]
      split
      · rw [ih]
        simp
      · rfl

theorem searchForward_queue (s : UInt16) (before : List (Run M)) (prior : Run M)
    (after : List (Run M)) :
    (searchForward s before prior after).queue = before ++ prior :: after := by
  induction after generalizing before prior with
  | nil => rfl
  | cons next after ih =>
      simp only [searchForward]
      split
      · rw [ih]
        simp
      · rfl

theorem searchPrior_queue (s : UInt16) (head : Run M) (tail : List (Run M)) :
    (searchPrior s head tail).queue = head :: tail := by
  unfold searchPrior
  split
  · split
    · rename_i hrev
      rw [List.reverse_eq_nil_iff.mp hrev]
      rfl
    · rename_i last rest hrev
      rw [searchBackward_queue, ← List.reverse_reverse tail, hrev]
      simp
  · exact searchForward_queue s [] head tail

/-- Merging does not touch the order of the fragments, unless the last run meets
the head: it then comes first. -/
theorem frags_mergeRanges (before : List (Run M)) (node : Run M)
    (after : List (Run M)) :
    frags (mergeRanges ⟨before, node, after⟩) =
      if after = [] ∧ (before.head?.map Run.seq) = some (node.upper + 1) then
        node.frags ++ frags before
      else frags before ++ node.frags ++ frags after := by
  cases after with
  | cons next after =>
      simp only [mergeRanges]
      split <;> simp
  | nil =>
      cases before with
      | nil => simp [mergeRanges]
      | cons next before =>
          simp only [mergeRanges]
          by_cases h : node.upper + 1 = next.seq
          · simp [h]
          · simp [h, Ne.symm h]

theorem mergeRanges_perm (before : List (Run M)) (node : Run M) (after : List (Run M)) :
    (frags (mergeRanges ⟨before, node, after⟩)).Perm
      (node.frags ++ frags (before ++ after)) := by
  rw [frags_mergeRanges, frags_append]
  split
  · rename_i h
    simp [h.1]
  · rw [← List.append_assoc]
    exact List.perm_append_comm.append_right _

/-- Whatever the state of the ring and wherever the search ends, the new
fragment joins those that wait and none of them is lost or repeated. -/
theorem appendFragToOrderedList_perm (queue : List (Run M)) (frag : RecvFrag M)
    (e : UInt16) :
    (frags (appendFragToOrderedList queue frag e)).Perm (frag :: frags queue) := by
  cases queue with
  | nil => simp [appendFragToOrderedList]
  | cons head tail =>
      have hq := searchPrior_queue frag.hdrSeq head tail
      simp only [appendFragToOrderedList]
      rw [← hq]
      generalize searchPrior frag.hdrSeq head tail = c
      have hc : frags c.queue = frags c.before ++ (c.node.frags ++ frags c.after) := by
        simp [Cursor.queue]
      rw [hc]
      split
      · refine (mergeRanges_perm _ _ _).trans ?_
        have hnode : Run.frags { c.node with range := c.node.range ++ [frag] } =
            c.node.frags ++ [frag] := rfl
        rw [hnode, frags_append, List.append_assoc, List.singleton_append]
        refine List.perm_middle.trans (.cons _ ?_)
        exact List.perm_append_comm_assoc _ _ _
      · split
        · refine (mergeRanges_perm _ _ _).trans ?_
          simp only [List.nil_append, frags_append, frags_cons, frags_nil,
            List.append_nil, Run.frags_mk, List.cons_append]
          rw [List.append_assoc, ← List.append_assoc (frags c.before)]
          exact .cons _ List.perm_append_comm
        · refine (mergeRanges_perm _ _ _).trans ?_
          simp

/-! ## Where the search ends -/

def Run.ahead (e : UInt16) (n : Run M) : Nat := distance e n.frag.hdrSeq

theorem Run.ahead_cases (e : UInt16) (n : Run M) :
    e.toNat ≤ n.seq ∧ n.ahead e + e.toNat = n.seq ∧ n.seq < 65536 ∨
      n.seq < e.toNat ∧ n.ahead e + e.toNat = n.seq + 65536 :=
  distance_cases e n.frag.hdrSeq

section Search

variable {e s : UInt16}

structure Cursor.Splits (e s : UInt16) (c : Cursor M) : Prop where
  nearer : ∀ n ∈ c.before ++ [c.node], n.ahead e < distance e s
  farther : ∀ n ∈ c.after, distance e s < n.ahead e

theorem searchForward_splits {before after : List (Run M)} {prior : Run M}
    (hsorted : (prior :: after).Pairwise fun a b => a.ahead e < b.ahead e)
    (hfresh : ∀ n ∈ prior :: after, n.frag.hdrSeq ≠ s)
    (hbefore : ∀ n ∈ before ++ [prior], n.ahead e < distance e s)
    (hprior : prior.seq < s.toNat) :
    (searchForward s before prior after).Splits e s := by
  induction after generalizing before prior with
  | nil => exact ⟨hbefore, by simp [searchForward]⟩
  | cons next after ih =>
      have hp := prior.ahead_cases e
      have hn := next.ahead_cases e
      have hs := distance_cases e s
      have hps : prior.ahead e < distance e s := hbefore prior (by simp)
      have hpn : prior.ahead e < next.ahead e := (List.pairwise_cons.mp hsorted).1 _ (by simp)
      simp only [searchForward]
      split
      · rename_i h
        have hns : next.ahead e < distance e s := by omega
        apply ih (List.pairwise_cons.mp hsorted).2
        · exact fun n hmem => hfresh n (List.mem_cons_of_mem _ hmem)
        · intro n hmem
          rcases List.mem_append.mp hmem with h' | h'
          · exact hbefore n h'
          · rw [List.mem_singleton.mp h']
            exact hns
        · exact h.2.1
      · rename_i h
        refine ⟨hbefore, ?_⟩
        have hne : next.seq ≠ s.toNat := fun h' =>
          hfresh next (by simp) (UInt16.toNat_inj.mp h')
        have hsn : distance e s < next.ahead e := by omega
        intro n hmem
        rcases List.mem_cons.mp hmem with rfl | h'
        · exact hsn
        · have hlt := (List.pairwise_cons.mp (List.pairwise_cons.mp hsorted).2).1 n h'
          omega

/-- Above a head that rolled over, a fragment that did not goes last. -/
theorem searchForward_after {before after : List (Run M)} {prior : Run M}
    (hsorted : (prior :: after).Pairwise fun a b => a.ahead e < b.ahead e)
    (hprior : prior.seq < e.toNat) (hs : e.toNat ≤ s.toNat) :
    (searchForward s before prior after).after = [] := by
  induction after generalizing before prior with
  | nil => rfl
  | cons next after ih =>
      have hp := prior.ahead_cases e
      have hn := next.ahead_cases e
      have hn' : next.seq < 65536 := next.frag.hdrSeq.toNat_lt
      have hpn : prior.ahead e < next.ahead e := (List.pairwise_cons.mp hsorted).1 _ (by simp)
      simp only [searchForward]
      rw [if_pos (by omega)]
      exact ih (List.pairwise_cons.mp hsorted).2 (by omega)

theorem searchBackward_splits {d1 : UInt16} {rest after : List (Run M)} {prior : Run M}
    (hsorted : (rest.reverse ++ prior :: after).Pairwise
      fun a b => a.ahead e < b.ahead e)
    (hfresh : ∀ n ∈ prior :: rest, n.frag.hdrSeq ≠ s)
    (hhead : ∀ n ∈ (prior :: rest).getLast?, n.ahead e < distance e s)
    (hafter : ∀ n ∈ after, distance e s < n.ahead e)
    (hs : s.toNat < e.toNat)
    (hd1 : ∀ n ∈ prior :: rest, n.seq < d1.toNat + s.toNat ↔ n.seq < e.toNat) :
    (searchBackward s d1 rest prior after).Splits e s := by
  induction rest generalizing d1 prior after with
  | nil =>
      refine ⟨?_, hafter⟩
      intro n hmem
      rw [List.mem_singleton.mp hmem]
      exact hhead prior rfl
  | cons p rest ih =>
      have hp := prior.ahead_cases e
      have hds := distance_cases e s
      have hd2 := prior.ahead_cases s
      have hprior := hd1 prior (by simp)
      have hne : prior.seq ≠ s.toNat := fun h' =>
        hfresh prior (by simp) (UInt16.toNat_inj.mp h')
      have hsub : (prior.frag.hdrSeq - s).toNat = prior.ahead s := rfl
      have hback : ∀ n ∈ p :: rest, n.ahead e < prior.ahead e := fun n hn =>
        (List.pairwise_append.mp hsorted).2.2 n (List.mem_reverse.mpr hn) prior (by simp)
      simp only [searchBackward]
      rw [hsub]
      split
      · have hsp : distance e s < prior.ahead e := by omega
        rw [List.reverse_cons, List.append_assoc, List.singleton_append] at hsorted
        apply ih hsorted
        · exact fun n hn => hfresh n (List.mem_cons_of_mem _ hn)
        · simpa using hhead
        · intro n hn
          rcases List.mem_cons.mp hn with rfl | hn
          · exact hsp
          · exact hafter n hn
        · intro n hn
          have hnp := hback n hn
          have hna := n.ahead_cases e
          rw [hsub]
          omega
      · have hsp : prior.ahead e < distance e s := by omega
        refine ⟨?_, hafter⟩
        intro n hn
        rcases List.mem_append.mp hn with hn | hn
        · have hnp := hback n (List.mem_reverse.mp hn)
          omega
        · rw [List.mem_singleton.mp hn]
          exact hsp

theorem searchPrior_splits {head : Run M} {tail : List (Run M)}
    (hsorted : (head :: tail).Pairwise fun a b => a.ahead e < b.ahead e)
    (hfresh : ∀ n ∈ head :: tail, n.frag.hdrSeq ≠ s)
    (hhead : head.ahead e < distance e s) : (searchPrior s head tail).Splits e s := by
  have hd := distance_cases e s
  have hh := head.ahead_cases e
  unfold searchPrior
  split
  · have hs : s.toNat < e.toNat := by omega
    split
    · exact ⟨by simpa using hhead, by simp⟩
    · rename_i last rest hrev
      have htail : tail = rest.reverse ++ [last] := by
        rw [← List.reverse_reverse tail, hrev, List.reverse_cons]
      have hmem : ∀ n ∈ last :: (rest ++ [head]), n ∈ head :: tail := by
        intro n hn
        simp only [htail, List.mem_cons, List.mem_append, List.mem_reverse] at hn ⊢
        tauto
      apply searchBackward_splits
      · rw [htail] at hsorted
        simpa using hsorted
      · exact fun n hn => hfresh n (hmem n hn)
      · simpa [List.getLast?_cons] using hhead
      · simp
      · exact hs
      · intro n hn
        have hsub : (head.frag.hdrSeq - s).toNat = head.ahead s := rfl
        have hh' := head.ahead_cases s
        have hna := n.ahead_cases e
        have hle : head.ahead e ≤ n.ahead e := by
          rcases List.mem_cons.mp (hmem n hn) with rfl | hn'
          · exact Nat.le_refl _
          · exact Nat.le_of_lt ((List.pairwise_cons.mp hsorted).1 n hn')
        rw [hsub]
        omega
  · have hne : head.seq ≠ s.toNat := fun h' =>
      hfresh head (by simp) (UInt16.toNat_inj.mp h')
    exact searchForward_splits hsorted hfresh (by simpa using hhead) (by omega)

/-- A fragment nearer than the head goes behind the last run, which closes the
ring just before the head. -/
theorem searchPrior_after {head : Run M} {tail : List (Run M)}
    (hsorted : (head :: tail).Pairwise fun a b => a.ahead e < b.ahead e)
    (hhead : distance e s < head.ahead e) : (searchPrior s head tail).after = [] := by
  have hd := distance_cases e s
  have hh := head.ahead_cases e
  unfold searchPrior
  split
  · split
    · rfl
    · rename_i last rest hrev
      have hlast : head.ahead e < last.ahead e := by
        apply (List.pairwise_cons.mp hsorted).1
        rw [← List.mem_reverse, hrev]
        exact List.mem_cons_self
      have hl := last.ahead_cases e
      have hl' := last.ahead_cases s
      have hh' := head.ahead_cases s
      have hsub : (last.frag.hdrSeq - s).toNat = last.ahead s := rfl
      have hsub' : (head.frag.hdrSeq - s).toNat = head.ahead s := rfl
      cases rest with
      | nil =>
          simp only [List.nil_append, searchBackward]
          rw [hsub, hsub', if_neg (by omega)]
      | cons p rest =>
          simp only [List.cons_append, searchBackward]
          rw [hsub, hsub', if_neg (by omega)]
  · exact searchForward_after hsorted (by omega) (by omega)

end Search

/-! ## Runs stay runs -/

theorem Run.upper_eq {n : Run M} (hn : n.Consecutive) :
    n.upper = n.seq + n.range.length := by
  have h := congrArg List.getLast? hn
  rw [List.getLast?_map, Run.frags, List.getLast?_cons] at h
  simpa [List.getLast?_range', upper] using h

theorem Run.Consecutive.single (f : RecvFrag M) : Run.Consecutive ⟨f, []⟩ := rfl

theorem Run.Consecutive.merge {n next : Run M} (hn : n.Consecutive)
    (hnext : next.Consecutive) (h : n.upper + 1 = next.seq) :
    (n.merge next).Consecutive := by
  have hlen : next.seq = n.seq + n.frags.length := by
    rw [← h, Run.upper_eq hn, Run.frags, List.length_cons]
    omega
  unfold Run.Consecutive at hn hnext ⊢
  rw [Run.frags_merge, List.map_append, hn, hnext, hlen, Run.merge_seq,
    List.length_append, List.range'_append_1]

theorem mergeRanges_consecutive {before after : List (Run M)} {node : Run M}
    (hnode : node.Consecutive) (h : ∀ n ∈ before ++ after, n.Consecutive) :
    ∀ n ∈ mergeRanges ⟨before, node, after⟩, n.Consecutive := by
  cases after with
  | cons next after =>
      simp only [mergeRanges]
      split
      · have hmerge := hnode.merge (h next (by simp)) ‹_›
        simp only [List.mem_append, List.mem_cons] at h ⊢
        rintro n (hn | rfl | hn)
        · exact h n (.inl hn)
        · exact hmerge
        · exact h n (.inr (.inr hn))
      · simp only [List.mem_append, List.mem_cons] at h ⊢
        rintro n (hn | rfl | hn)
        · exact h n (.inl hn)
        · exact hnode
        · exact h n (.inr hn)
  | nil =>
      cases before with
      | nil => simpa [mergeRanges] using hnode
      | cons next before =>
          simp only [mergeRanges]
          split
          · have hmerge := hnode.merge (h next (by simp)) ‹_›
            simp only [List.append_nil, List.mem_cons] at h ⊢
            rintro n (rfl | hn)
            · exact hmerge
            · exact h n (.inr hn)
          · simp only [List.append_nil, List.cons_append, List.mem_cons, List.mem_append,
              List.not_mem_nil, or_false] at h ⊢
            rintro n (rfl | hn | rfl)
            · exact h n (.inl rfl)
            · exact h n (.inr hn)
            · exact hnode

theorem appendFragToOrderedList_consecutive {queue : List (Run M)}
    (h : ∀ n ∈ queue, n.Consecutive) (frag : RecvFrag M) (e : UInt16) :
    ∀ n ∈ appendFragToOrderedList queue frag e, n.Consecutive := by
  cases queue with
  | nil => simpa [appendFragToOrderedList] using Run.Consecutive.single frag
  | cons head tail =>
      have hq := searchPrior_queue frag.hdrSeq head tail
      rw [← hq] at h
      simp only [appendFragToOrderedList]
      generalize searchPrior frag.hdrSeq head tail = c at h
      simp only [Cursor.queue, List.mem_append, List.mem_cons] at h
      split
      · have hjoin := (h c.node (.inr (.inl rfl))).merge (.single frag) ‹_›
        apply mergeRanges_consecutive hjoin
        intro n hn
        rcases List.mem_append.mp hn with hn | hn
        · exact h n (.inl hn)
        · exact h n (.inr (.inr hn))
      · split
        · apply mergeRanges_consecutive (.single frag)
          simp only [List.nil_append, List.mem_append, List.mem_singleton]
          rintro n ((hn | hn) | hn)
          · exact h n (.inr (.inr hn))
          · exact h n (.inl hn)
          · exact h n (.inr (.inl hn))
        · apply mergeRanges_consecutive (.single frag)
          simp only [List.mem_append, List.mem_singleton]
          rintro n ((hn | hn) | hn)
          · exact h n (.inl hn)
          · exact h n (.inr (.inl hn))
          · exact h n (.inr (.inr hn))

/-! ## The order after an insertion -/

namespace Ordered

variable {e : UInt16} {queue : List (Run M)} (hq : Ordered e queue)
include hq

theorem ahead_sorted : queue.Pairwise fun a b => a.ahead e < b.ahead e := by
  refine (List.pairwise_flatMap.mp hq.sorted).2.imp ?_
  exact fun h => h _ List.mem_cons_self _ List.mem_cons_self

theorem distance_getElem {n : Run M} (hn : n ∈ queue) {i : Nat}
    (hi : i < n.frags.length) :
    distance e n.frags[i].hdrSeq = n.ahead e + i := by
  have hseq : n.frags[i].hdrSeq.toNat = n.seq + i := by
    have h := congrArg (·[i]?) (hq.consecutive n hn)
    simpa [hi] using h
  have hle : i = 0 ∨ n.ahead e < distance e n.frags[i].hdrSeq := by
    have hsorted := (List.pairwise_flatMap.mp hq.sorted).1 n hn
    rcases Nat.eq_zero_or_pos i with h | h
    · exact .inl h
    · exact .inr (List.pairwise_iff_getElem.mp hsorted 0 i (by omega) hi h)
  have h₁ := n.ahead_cases e
  have h₂ := distance_cases e n.frags[i].hdrSeq
  omega

theorem ahead_le {n : Run M} (hn : n ∈ queue) {f : RecvFrag M} (hf : f ∈ n.frags) :
    n.ahead e ≤ distance e f.hdrSeq := by
  obtain ⟨i, hi, rfl⟩ := List.getElem_of_mem hf
  rw [hq.distance_getElem hn hi]
  omega

theorem distance_lt {n : Run M} (hn : n ∈ queue) {s : UInt16}
    (hfresh : ∀ f ∈ frags queue, f.hdrSeq ≠ s) (hs : n.ahead e < distance e s)
    {f : RecvFrag M} (hf : f ∈ n.frags) : distance e f.hdrSeq < distance e s := by
  obtain ⟨i, hi, rfl⟩ := List.getElem_of_mem hf
  rw [hq.distance_getElem hn hi]
  by_contra hlt
  have hj : distance e s - n.ahead e < n.frags.length := by omega
  have heq := hq.distance_getElem hn hj
  apply hfresh _ (List.mem_flatMap.mpr ⟨n, hn, List.getElem_mem hj⟩)
  rw [← distance_inj (e := e), heq]
  omega

end Ordered

section Insert

variable {e : UInt16} {frag : RecvFrag M} {head : Run M} {tail : List (Run M)}
  (hq : Ordered e (head :: tail)) (hne : frag.hdrSeq ≠ e)
  (hfresh : ∀ f ∈ frags (head :: tail), f.hdrSeq ≠ frag.hdrSeq)
  (hlast : head.frag.hdrSeq = e → frag.hdrSeq + 1 ≠ e)
include hq hne hfresh hlast

omit hne in
theorem frags_append_of_farther (h : head.ahead e < distance e frag.hdrSeq) :
    ∃ near far, frags (head :: tail) = near ++ far ∧
      frags (appendFragToOrderedList (head :: tail) frag e) = near ++ frag :: far ∧
      (∀ f ∈ near, distance e f.hdrSeq < distance e frag.hdrSeq) ∧
      ∀ f ∈ far, distance e frag.hdrSeq < distance e f.hdrSeq := by
  have hsplit := searchPrior_splits hq.ahead_sorted
    (fun n hn => hfresh _ (mem_frags hn)) h
  have hqueue := searchPrior_queue frag.hdrSeq head tail
  simp only [appendFragToOrderedList]
  generalize searchPrior frag.hdrSeq head tail = c at hsplit hqueue
  have hmem : ∀ n ∈ c.before ++ c.node :: c.after, n ∈ head :: tail :=
    fun n hn => hqueue ▸ hn
  have hhead := head.ahead_cases e
  have hdist := distance_cases e frag.hdrSeq
  -- the run before the rollover point never closes up with the head
  have hgap : ((c.before ++ [c.node]).head?.map Run.seq) ≠ some (frag.hdrSeq.toNat + 1) := by
    have hfirst : (c.before ++ [c.node]).head? = some head := by
      have h := congrArg List.head? hqueue
      cases hb : c.before <;> simpa [Cursor.queue, hb] using h
    have hseam : ¬(head.seq = e.toNat ∧ frag.hdrSeq.toNat + 1 = e.toNat) := by
      rintro ⟨hexpected, hsucc⟩
      apply hlast (UInt16.toNat_inj.mp hexpected)
      have he := e.toNat_lt
      rw [← UInt16.toNat_inj, UInt16.toNat_add]
      change (frag.hdrSeq.toNat + 1) % 65536 = _
      omega
    rw [hfirst, Option.map_some, ne_eq, Option.some_inj]
    omega
  refine ⟨frags (c.before ++ [c.node]), frags c.after, ?_, ?_, ?_, ?_⟩
  · rw [← hqueue]
    simp [Cursor.queue]
  · split
    · rw [frags_mergeRanges, if_neg]
      · simp [Run.frags]
      · rintro ⟨-, hmeets⟩
        apply hgap
        cases hb : c.before with
        | nil => simp [hb] at hmeets
        | cons first before => simpa [hb, Run.upper] using hmeets
    · rw [if_neg (by unfold absDiff; omega), frags_mergeRanges, if_neg]
      · simp
      · rintro ⟨-, hmeets⟩
        exact hgap hmeets
  · intro f hf
    obtain ⟨n, hn, hfn⟩ := List.mem_flatMap.mp hf
    have hn' : n ∈ head :: tail := hmem n (by
      rcases List.mem_append.mp hn with hn | hn
      · exact List.mem_append_left _ hn
      · rw [List.mem_singleton.mp hn]
        simp)
    exact hq.distance_lt hn' hfresh (hsplit.nearer n hn) hfn
  · intro f hf
    obtain ⟨n, hn, hfn⟩ := List.mem_flatMap.mp hf
    have hle := hq.ahead_le (hmem n (by simp [hn])) hfn
    have hlt := hsplit.farther n hn
    omega

omit hlast in
theorem frags_append_of_nearer (h : distance e frag.hdrSeq < head.ahead e) :
    frags (appendFragToOrderedList (head :: tail) frag e) =
      if RollsOver e frag.hdrSeq (head :: tail) then frags (head :: tail) ++ [frag]
      else frag :: frags (head :: tail) := by
  have hafter := searchPrior_after hq.ahead_sorted h
  have hqueue := searchPrior_queue frag.hdrSeq head tail
  simp only [appendFragToOrderedList]
  generalize searchPrior frag.hdrSeq head tail = c at hafter hqueue
  have hback : c.before ++ [c.node] = head :: tail := by
    rw [← hqueue, Cursor.queue, hafter]
  have hhead := head.ahead_cases e
  have hdist := distance_cases e frag.hdrSeq
  have hjoin : c.node.upper + 1 ≠ frag.hdrSeq.toNat := by
    have hnode : c.node ∈ head :: tail := hback ▸ List.mem_append_right _ (by simp)
    have hlast : c.node.range.getLastD c.node.frag ∈ c.node.frags := by
      rw [Run.frags, List.getLastD_eq_getLast?]
      cases hr : c.node.range.getLast? with
      | none => simp
      | some f => simp [List.mem_of_getLast? hr]
    have hle := hq.ahead_le hnode hlast
    have hfirst : head.ahead e ≤ c.node.ahead e := by
      rcases List.mem_cons.mp hnode with hn | hn
      · rw [hn]
      · exact Nat.le_of_lt ((List.pairwise_cons.mp hq.ahead_sorted).1 _ hn)
    have hpending := distance_pos.mpr hne
    have hupper := distance_cases e (c.node.range.getLastD c.node.frag).hdrSeq
    unfold Run.upper
    omega
  rw [if_neg hjoin, hafter, List.nil_append, hback]
  have hroll : RollsOver e frag.hdrSeq (head :: tail) ↔
      ¬(e.toNat ≤ frag.hdrSeq.toNat ∧
        absDiff frag.hdrSeq.toNat e.toNat < absDiff head.seq e.toNat) ∧
      head.seq ≠ frag.hdrSeq.toNat + 1 := by
    unfold RollsOver absDiff
    have hs : head.seq ≠ frag.hdrSeq.toNat := fun h' =>
      hfresh _ (mem_frags List.mem_cons_self) (UInt16.toNat_inj.mp h')
    omega
  by_cases hcloser : e.toNat ≤ frag.hdrSeq.toNat ∧
      absDiff frag.hdrSeq.toNat e.toNat < absDiff head.seq e.toNat
  · rw [if_pos hcloser, if_neg (fun h' => (hroll.mp h').1 hcloser), frags_mergeRanges,
      if_neg (by simp)]
    simp
  · rw [if_neg hcloser, frags_mergeRanges]
    by_cases hmeets : head.seq = frag.hdrSeq.toNat + 1
    · rw [if_neg (fun h' => (hroll.mp h').2 hmeets),
        if_pos (by simpa [Run.upper] using hmeets)]
      simp
    · rw [if_pos (hroll.mpr ⟨hcloser, hmeets⟩),
        if_neg (by simpa [Run.upper] using hmeets)]
      simp

theorem append_ordered_iff :
    Ordered e (appendFragToOrderedList (head :: tail) frag e) ↔
      ¬RollsOver e frag.hdrSeq (head :: tail) := by
  have hconsecutive := appendFragToOrderedList_consecutive hq.consecutive frag e
  have hhead := head.ahead_cases e
  have hdist := distance_cases e frag.hdrSeq
  rcases Nat.lt_trichotomy (head.ahead e) (distance e frag.hdrSeq) with h | h | h
  · obtain ⟨near, far, hsplit, heq, hnear, hfar⟩ := frags_append_of_farther hq hfresh hlast h
    have hroll : ¬RollsOver e frag.hdrSeq (head :: tail) := by
      unfold RollsOver
      omega
    refine iff_of_true ⟨hconsecutive, ?_⟩ hroll
    have hsorted := hq.sorted
    rw [hsplit, List.pairwise_append] at hsorted
    rw [heq, List.pairwise_append, List.pairwise_cons]
    refine ⟨hsorted.1, ⟨hfar, hsorted.2.1⟩, ?_⟩
    intro a ha b hb
    rcases List.mem_cons.mp hb with rfl | hb
    · exact hnear a ha
    · exact hsorted.2.2 a ha b hb
  · exact absurd (distance_inj.mp h) (hfresh _ (mem_frags List.mem_cons_self))
  · have heq := frags_append_of_nearer hq hne hfresh h
    by_cases hroll : RollsOver e frag.hdrSeq (head :: tail)
    · refine iff_of_false (fun ho => ?_) (not_not_intro hroll)
      have hsorted := ho.sorted
      rw [heq, if_pos hroll, List.pairwise_append] at hsorted
      have hlt := hsorted.2.2 head.frag (mem_frags List.mem_cons_self) frag (by simp)
      exact absurd h (Nat.lt_asymm hlt)
    · refine iff_of_true ⟨hconsecutive, ?_⟩ hroll
      rw [heq, if_neg hroll, List.pairwise_cons]
      refine ⟨fun f hf => ?_, hq.sorted⟩
      obtain ⟨n, hn, hfn⟩ := List.mem_flatMap.mp hf
      have hle := hq.ahead_le hn hfn
      rcases List.mem_cons.mp hn with rfl | hn
      · omega
      · have hlt := (List.pairwise_cons.mp hq.ahead_sorted).1 n hn
        omega

end Insert

/-! ## Taking the fragment expected -/

theorem Ordered.nil (e : UInt16) : Ordered e ([] : List (Run M)) :=
  ⟨by simp, by simp⟩

theorem Ordered.single (e : UInt16) (frag : RecvFrag M) : Ordered e [⟨frag, []⟩] :=
  ⟨by simpa using Run.Consecutive.single frag, by simp [Run.frags]⟩

theorem Ordered.append {e : UInt16} {queue : List (Run M)} {frag : RecvFrag M}
    (hq : Ordered e queue) (hne : frag.hdrSeq ≠ e)
    (hfresh : ∀ f ∈ frags queue, f.hdrSeq ≠ frag.hdrSeq)
    (hlast : frag.hdrSeq + 1 ≠ e) (hroll : ¬RollsOver e frag.hdrSeq queue) :
    Ordered e (appendFragToOrderedList queue frag e) := by
  cases queue with
  | nil => exact .single e frag
  | cons head tail => exact (append_ordered_iff hq hne hfresh fun _ => hlast).mpr hroll

theorem Ordered.succ {e : UInt16} {queue : List (Run M)} (hq : Ordered e queue)
    (h : ∀ f ∈ frags queue, f.hdrSeq ≠ e) : Ordered (e + 1) queue := by
  refine ⟨hq.consecutive, ?_⟩
  refine hq.sorted.imp_of_mem ?_
  intro a b ha hb hab
  have h₁ := distance_succ (h a ha)
  have h₂ := distance_succ (h b hb)
  omega

theorem removeHead_consecutive {queue queue' : List (Run M)} {f : RecvFrag M}
    (h : removeHeadFromOrderedList queue = some (f, queue'))
    (hq : ∀ n ∈ queue, n.Consecutive) : ∀ n ∈ queue', n.Consecutive := by
  unfold removeHeadFromOrderedList at h
  split at h
  · cases h
  · cases h
    exact fun n hn => hq n (List.mem_cons_of_mem _ hn)
  · rename_i frag r range tail
    cases h
    intro n hn
    rcases List.mem_cons.mp hn with rfl | hn
    · have hhead := hq _ List.mem_cons_self
      simp only [Run.Consecutive, Run.frags_mk, List.map_cons, List.length_cons,
        List.range'_succ, List.cons.injEq, Run.seq] at hhead ⊢
      obtain ⟨-, hr, hrange⟩ := hhead
      refine ⟨trivial, ?_⟩
      rw [hrange, hr]
    · exact hq n (List.mem_cons_of_mem _ hn)

theorem Ordered.removeHead {e : UInt16} {queue queue' : List (Run M)} {f : RecvFrag M}
    (hq : Ordered e queue) (h : removeHeadFromOrderedList queue = some (f, queue')) :
    Ordered e queue' := by
  refine ⟨removeHead_consecutive h hq.consecutive, ?_⟩
  have hsorted := hq.sorted
  rw [removeHead_frags h] at hsorted
  exact (List.pairwise_cons.mp hsorted).2

inductive Checked (e : UInt16) (queue : List (Run M)) :
    Option (RecvFrag M × List (Run M)) → Prop
  | found {f : RecvFrag M} {queue' : List (Run M)} (hseq : f.hdrSeq = e)
      (hfrags : frags queue = f :: frags queue') (hq : Ordered (e + 1) queue') :
      Checked e queue (some (f, queue'))
  | missing (hmissing : ∀ f ∈ frags queue, f.hdrSeq ≠ e) : Checked e queue none

theorem checkCantmatch_checked {e : UInt16} {queue : List (Run M)}
    (hq : Ordered e queue) : Checked e queue (checkCantmatchForMatch e queue) := by
  cases queue with
  | nil => exact .missing (by simp)
  | cons head tail =>
      simp only [checkCantmatchForMatch]
      split
      · rename_i hhead
        cases h : removeHeadFromOrderedList (head :: tail) with
        | none =>
            unfold removeHeadFromOrderedList at h
            split at h <;> simp_all
        | some p =>
            obtain ⟨f, queue'⟩ := p
            have hfrags := removeHead_frags h
            have hf : f = head.frag := by
              rw [frags_cons, Run.frags, List.cons_append] at hfrags
              exact (List.cons.inj hfrags).1.symm
            have hseq : f.hdrSeq = e := hf ▸ UInt16.toNat_inj.mp hhead
            refine .found hseq hfrags ((hq.removeHead h).succ ?_)
            intro g hg heq
            have hsorted := hq.sorted
            rw [hfrags] at hsorted
            have hlt := (List.pairwise_cons.mp hsorted).1 g hg
            rw [hseq, heq] at hlt
            omega
      · rename_i hhead
        refine .missing fun f hf heq => hhead ?_
        obtain ⟨n, hn, hfn⟩ := List.mem_flatMap.mp hf
        have hle := hq.ahead_le hn hfn
        have hfirst : head.ahead e ≤ n.ahead e := by
          rcases List.mem_cons.mp hn with rfl | hn
          · exact Nat.le_refl _
          · exact Nat.le_of_lt ((List.pairwise_cons.mp hq.ahead_sorted).1 n hn)
        have hzero : distance e f.hdrSeq = 0 := by simp [heq, distance]
        have hsame : distance e head.frag.hdrSeq = distance e f.hdrSeq := by
          unfold Run.ahead at hfirst hle
          omega
        rw [distance_inj, heq] at hsame
        exact congrArg UInt16.toNat hsame

/-! ## The rollover -/

theorem checkCantmatch_eq_none {s : UInt16} {queue : List (Run M)} {f : RecvFrag M}
    {rest : List (RecvFrag M)} (hfrags : frags queue = f :: rest) (hne : f.hdrSeq ≠ s) :
    checkCantmatchForMatch s queue = none := by
  cases h : checkCantmatchForMatch s queue with
  | none => rfl
  | some p =>
      obtain ⟨g, queue'⟩ := p
      have hcheck := checkCantmatch_frags h
      rw [hfrags] at hcheck
      obtain ⟨rfl, -⟩ := List.cons.inj hcheck
      unfold checkCantmatchForMatch at h
      split at h
      · cases h
      · split at h
        · rename_i head tail hhead
          rw [frags_cons, Run.frags, List.cons_append] at hfrags
          obtain ⟨rfl, -⟩ := List.cons.inj hfrags
          exact absurd (UInt16.toNat_inj.mp hhead) hne
        · cases h

section Rollover

variable {e : UInt16} {queue : List (Run M)} {frag : RecvFrag M} (hq : Ordered e queue)
  (hne : frag.hdrSeq ≠ e) (hfresh : ∀ f ∈ frags queue, f.hdrSeq ≠ frag.hdrSeq)
include hq hne hfresh

end Rollover

def numbered (s : UInt16) : RecvFrag Unit := ⟨.match_, 0, 0, 0, s, ()⟩

end ProgPara.Ob1
