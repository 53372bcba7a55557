import AntsClient.Chain.Blocks
import AntsClient.Lib.Sorting

namespace AntsClient.Chain.Patterns

open Common Crypto Blocks Lib.Sorting List

def idLe (a b : Bytes32) : Prop := memcmp a.val b.val ≠ .gt

instance : DecidableRel idLe := fun a b => inferInstanceAs (Decidable (memcmp a.val b.val ≠ .gt))

theorem idLe_iff {a b : Bytes32} : idLe a b ↔ a.val ≤ b.val := by
  rw [idLe, Ne, memcmp_gt_iff (a.length_val.trans b.length_val.symm)]
  rfl

instance : Std.Total idLe where
  total a b := by
    rw [idLe_iff, idLe_iff]
    exact List.le_total a.val b.val

instance : IsTrans Bytes32 idLe where
  trans _ _ _ hab hbc := idLe_iff.mpr (List.le_trans (idLe_iff.mp hab) (idLe_iff.mp hbc))

instance : Std.Antisymm idLe where
  antisymm _ _ hab hba := Bytes32.ext (List.le_antisymm (idLe_iff.mp hab) (idLe_iff.mp hba))

variable {f : PatternFinding} {fs : List PatternFinding}

section Scan

variable (events : List Event) (now : UInt64)

def countFor (subject : Bytes32) : Nat := events.countP fun e => e.subject = subject && eventInWindow e now

def findingFor (subject : Bytes32) : PatternFinding :=
  ⟨subject, 1, patternWindowS, UInt64.ofNat (countFor events now subject),
    severityForCount (countFor events now subject)⟩

theorem mem_scanEvents {seen rest : List Event} : f ∈ scanEvents events now seen rest ↔
    ∃ e ∈ rest, (∀ e' ∈ seen, e'.subject ≠ e.subject) ∧ 1 ≤ countFor events now e.subject ∧
    f = findingFor events now e.subject := by
  induction rest generalizing seen with
  | nil => simp [scanEvents]
  | cons e rest ih =>
    have hlater : f ∈ scanEvents events now (seen ++ [e]) rest ↔ ∃ x ∈ rest,
      ((∀ e' ∈ seen, e'.subject ≠ x.subject) ∧
        e.subject ≠ x.subject) ∧ 1 ≤ countFor events now x.subject ∧ f = findingFor events now x.subject := by
      rw [ih]
      simp [or_imp, forall_and]
    rw [scanEvents]
    split
    · rename_i hskip
      rw [hlater]
      constructor
      · rintro ⟨x, hx, ⟨hseen, -⟩, hrest⟩
        exact ⟨x, mem_cons_of_mem _ hx, hseen, hrest⟩
      · rintro ⟨x, hx, hseen, hcount, hf⟩
        have hne : e.subject ≠ x.subject := by
          intro he
          simp only [Bool.or_eq_true, any_eq_true, decide_eq_true_eq] at hskip
          rcases hskip with ⟨e', he', hsame⟩ | hzero
          · exact hseen e' he' (hsame.trans he)
          · rw [← he] at hcount
            exact absurd hcount (Nat.not_le.mpr hzero)
        rcases mem_cons.mp hx with rfl | hx
        · exact absurd rfl hne
        · exact ⟨x, hx, ⟨hseen, hne⟩, hcount, hf⟩
    · rename_i hnew
      simp only [Bool.or_eq_true, any_eq_true, decide_eq_true_eq, not_or, not_exists, not_and,
        Nat.not_lt] at hnew
      rw [mem_cons, hlater]
      constructor
      · rintro (rfl | ⟨x, hx, ⟨hseen, -⟩, hrest⟩)
        · exact ⟨e, mem_cons_self, hnew.1, hnew.2, rfl⟩
        · exact ⟨x, mem_cons_of_mem _ hx, hseen, hrest⟩
      · rintro ⟨x, hx, hseen, hcount, hf⟩
        by_cases he : e.subject = x.subject
        · rw [← he] at hf
          exact .inl hf
        · rcases mem_cons.mp hx with rfl | hx
          · exact absurd rfl he
          · exact .inr ⟨x, hx, ⟨hseen, he⟩, hcount, hf⟩

theorem scanEvents_nodup (seen rest : List Event) :
    ((scanEvents events now seen rest).map PatternFinding.subject).Nodup := by
  induction rest generalizing seen with
  | nil => exact nodup_nil
  | cons e rest ih =>
    rw [scanEvents]
    split
    · exact ih _
    · rw [map_cons, nodup_cons]
      refine ⟨fun hm => ?_, ih _⟩
      obtain ⟨f, hf, hsubject⟩ := mem_map.mp hm
      obtain ⟨x, -, hseen, -, rfl⟩ := (mem_scanEvents events now).mp hf
      exact hseen e (by simp) hsubject.symm

variable {events now} {events' : List Event} (h : events.Perm events')

include h

theorem countFor_perm (subject : Bytes32) :
    countFor events now subject = countFor events' now subject := h.countP_eq _

theorem scanEvents_perm : (scanEvents events now [] events).Perm (scanEvents events' now [] events') := by
  rw [perm_ext_iff_of_nodup (scanEvents_nodup events now [] events).of_map
    (scanEvents_nodup events' now [] events').of_map]
  intro f
  rw [mem_scanEvents, mem_scanEvents]
  simp only [findingFor, countFor_perm h, h.mem_iff]

end Scan

theorem sortFindings_eq (fs : List PatternFinding) :
    sortFindings fs = (fs.reverse.insertionSort fun f g => idLe g.subject f.subject).reverse := by
  have hinsert : ∀ key sorted, insertFinding key sorted =
      sorted.orderedInsert (fun f g => idLe g.subject f.subject) key := by
    intro key sorted
    induction sorted with
    | nil => rfl
    | cons f fs ih =>
      rw [insertFinding, orderedInsert_cons, ih]
      by_cases hgt : memcmp f.subject.val key.subject.val = .gt
      · have hle : ¬idLe f.subject key.subject := not_not.mpr hgt
        rw [if_pos hgt, if_neg hle]
      · have hle : idLe f.subject key.subject := hgt
        rw [if_neg hgt, if_pos hle]
  rw [sortFindings, ← foldl_orderedInsert]
  simp only [hinsert]

theorem sortFindings_perm (fs : List PatternFinding) : (sortFindings fs).Perm fs := by
  rw [sortFindings_eq]
  exact (reverse_perm _).trans ((perm_insertionSort _ _).trans (reverse_perm _))

theorem sortFindings_congr {fs' : List PatternFinding} (h : fs.Perm fs')
    (hn : (fs.map PatternFinding.subject).Nodup) :
    sortFindings fs = sortFindings fs' := by
  have : Std.Total fun a b : Bytes32 => idLe b a := ⟨fun a b => Std.Total.total b a⟩
  have : IsTrans Bytes32 fun a b => idLe b a := ⟨fun a b c hab hbc => IsTrans.trans c b a hbc hab⟩
  have : Std.Antisymm fun a b : Bytes32 => idLe b a := ⟨fun a b hab hba => Std.Antisymm.antisymm a b hba hab⟩
  have hreverse : fs.reverse.Perm fs'.reverse := (reverse_perm fs).trans (h.trans (reverse_perm fs').symm)
  rw [sortFindings_eq, sortFindings_eq]
  congr 1
  refine insertionSort_congr PatternFinding.subject (fun a b => idLe b a) hreverse ?_
  intro f hf g hg
  exact inj_on_of_nodup_map hn (mem_reverse.mp hf) (mem_reverse.mp hg)

variable {events : List Event} {now : UInt64}

theorem patternScan_perm {events' : List Event} (h : events.Perm events') (now : UInt64) (cap : Nat) :
    patternScan events now cap = patternScan events' now cap := by
  have hperm : (scanEvents events now [] events).Perm (scanEvents events' now [] events') := scanEvents_perm h
  simp only [patternScan, hperm.length_eq, sortFindings_congr hperm (scanEvents_nodup events now [] events)]

theorem mem_patternScan {cap : Nat} (h : patternScan events now cap = .ok fs) (hf : f ∈ fs) :
    f = findingFor events now f.subject := by
  simp only [patternScan] at h
  split at h
  · cases h
  · obtain rfl := Except.ok.inj h
    obtain ⟨e, -, -, -, rfl⟩ := (mem_scanEvents events now).mp ((sortFindings_perm _).mem_iff.mp hf)
    rfl

/-- The whole result of the scan: the number of findings, and the findings where they fit. -/
def patternScanOut (events : List Event) (now : UInt64) (cap : Nat) :
    Nat × Except Error (List PatternFinding) :=
  ((scanEvents events now [] events).length, patternScan events now cap)

def InWindow (now : UInt64) (e : Event) : Prop :=
  (now.toNat : Int) - 2592000 < e.timestamp.toNat ∧ e.timestamp.toNat ≤ now.toNat

instance decidableInWindow (now : UInt64) (e : Event) : Decidable (InWindow now e) :=
  inferInstanceAs (Decidable (_ ∧ _))

theorem eventInWindow_iff {e : Event} : eventInWindow e now = true ↔ InWindow now e := by
  rw [eventInWindow, Bool.and_eq_true, decide_eq_true_eq, decide_eq_true_eq, InWindow, and_comm,
    UInt64.le_iff_toNat_le]
  refine and_congr_left fun hle => ?_
  have hsub : (now - e.timestamp).toNat = now.toNat - e.timestamp.toNat :=
    UInt64.toNat_sub_of_le _ _ (UInt64.le_iff_toNat_le.mpr hle)
  have hwindow : patternWindowS.toNat = 2592000 := rfl
  rw [UInt64.lt_iff_toNat_lt, hsub, hwindow]
  omega

theorem countFor_eq (events : List Event) (now : UInt64) (subject : Bytes32) :
    countFor events now subject = (events.filter fun e => e.subject = subject ∧ InWindow now e).length := by
  rw [countFor, countP_eq_length_filter]
  refine congrArg List.length (filter_congr fun e _ => ?_)
  rw [Bool.eq_iff_iff, Bool.and_eq_true, eventInWindow_iff, decide_eq_true_eq, decide_eq_true_eq]

theorem countFor_pos {subject : Bytes32} :
    1 ≤ countFor events now subject ↔ ∃ e ∈ events, e.subject = subject ∧ InWindow now e := by
  rw [countFor, Nat.succ_le_iff, countP_pos_iff]
  simp only [Bool.and_eq_true, eventInWindow_iff, decide_eq_true_eq]

def severityBand (count : Nat) : UInt32 :=
  if count < 3 then severitySoft else if count ≤ 5 then severityMedium else severityHard

theorem severityForCount_eq (count : Nat) : severityForCount count = severityBand count := by
  rw [severityForCount, severityBand]
  by_cases hsoft : count < 3
  · rw [if_neg (by omega), if_neg (by omega), if_pos hsoft]
  · by_cases hmedium : count ≤ 5
    · rw [if_neg (by omega), if_pos (by omega), if_neg hsoft, if_pos hmedium]
    · rw [if_pos (by omega), if_neg hsoft, if_neg hmedium]

theorem idLe_lt {a b : Bytes32} (h : idLe a b) (hne : a ≠ b) : memcmp a.val b.val = .lt := by
  rw [memcmp_lt_iff (a.length_val.trans b.length_val.symm)]
  by_contra hlt
  exact hne (Bytes32.ext (List.le_antisymm (idLe_iff.mp h) (List.not_lt.mp hlt)))

theorem sortFindings_ascending (hn : (fs.map PatternFinding.subject).Nodup) :
    (sortFindings fs).Pairwise fun f g => memcmp f.subject.val g.subject.val = .lt := by
  have : Std.Total fun f g : PatternFinding => idLe g.subject f.subject :=
    ⟨fun f g => Std.Total.total g.subject f.subject⟩
  have : IsTrans PatternFinding fun f g => idLe g.subject f.subject :=
    ⟨fun f g k hfg hgk => IsTrans.trans k.subject g.subject f.subject hgk hfg⟩
  have hsorted : (sortFindings fs).Pairwise fun f g => idLe f.subject g.subject := by
    rw [sortFindings_eq, pairwise_reverse]
    exact pairwise_insertionSort _ _
  have hdistinct : (sortFindings fs).Pairwise fun f g => f.subject ≠ g.subject := by
    rw [← pairwise_map]
    exact ((sortFindings_perm fs).map _).nodup_iff.mpr hn
  exact hsorted.imp₂ (fun f g => idLe_lt) hdistinct

/-- One finding for each subject with an event in the window, in ascending order, whatever the order
of the events; the count is told where they do not fit. -/
theorem patternScan_multiset {events : List Event} (hlen : events.length < 2 ^ 64) (now : UInt64) :
    ∃ findings : List PatternFinding,
      (findings.Pairwise fun f g => memcmp f.subject.val g.subject.val = .lt) ∧
      (∀ subject, (∃ f ∈ findings, f.subject = subject) ↔ ∃ e ∈ events, e.subject = subject ∧ InWindow now e) ∧
      (∀ f ∈ findings, f.ruleId = 1 ∧ f.windowS = 2592000 ∧
        f.count.toNat = (events.filter fun e => e.subject = f.subject ∧ InWindow now e).length ∧
        f.severity = severityBand f.count.toNat) ∧
      ∀ events', events'.Perm events → ∀ cap, patternScanOut events' now cap =
        (findings.length, if findings.length ≤ cap then .ok findings else .error .bufferTooSmall) := by
  have hperm := sortFindings_perm (scanEvents events now [] events)
  refine ⟨sortFindings (scanEvents events now [] events),
    sortFindings_ascending (scanEvents_nodup events now [] events), ?_, ?_, ?_⟩
  · intro subject
    rw [← countFor_pos]
    constructor
    · rintro ⟨f, hf, rfl⟩
      obtain ⟨e, -, -, hcount, rfl⟩ := (mem_scanEvents events now).mp (hperm.mem_iff.mp hf)
      exact hcount
    · intro hcount
      obtain ⟨e, he, rfl, -⟩ := countFor_pos.mp hcount
      refine ⟨findingFor events now e.subject, hperm.mem_iff.mpr ((mem_scanEvents events now).mpr ?_), rfl⟩
      exact ⟨e, he, fun e' he' => absurd he' not_mem_nil, hcount, rfl⟩
  · intro f hf
    obtain ⟨e, -, -, -, rfl⟩ := (mem_scanEvents events now).mp (hperm.mem_iff.mp hf)
    have hcount : (UInt64.ofNat (countFor events now e.subject)).toNat = countFor events now e.subject :=
      UInt64.toNat_ofNat_of_lt' (countP_le_length.trans_lt hlen)
    refine ⟨rfl, rfl, hcount.trans (countFor_eq events now e.subject), ?_⟩
    rw [← severityForCount_eq]
    exact congrArg severityForCount hcount.symm
  · intro events' hevents cap
    rw [patternScanOut, patternScan_perm hevents, (scanEvents_perm hevents).length_eq,
      hperm.length_eq, patternScan]
    by_cases hfits : (scanEvents events now [] events).length ≤ cap
    · rw [if_neg (Nat.not_lt.mpr hfits), if_pos hfits]
    · rw [if_pos (Nat.not_le.mp hfits), if_neg hfits]

def sampleEvents : List Event := [⟨digest 2, 0, 1⟩, ⟨digest 1, 2592000, 1⟩, ⟨digest 1, 1, 1⟩]

/-- Two events of one subject, one of another that is too old. -/
theorem patternScan_multiset_sample : sampleEvents.length = 3 ∧ ∀ events', events'.Perm sampleEvents → ∀ cap,
    patternScanOut events' 2592000 cap =
      (1, if 1 ≤ cap then .ok [⟨digest 1, 1, 2592000, 2, severitySoft⟩] else .error .bufferTooSmall) := by
  refine ⟨rfl, ?_⟩
  obtain ⟨findings, -, -, -, hout⟩ := @patternScan_multiset sampleEvents (by decide) 2592000
  have hone := hout sampleEvents (List.Perm.refl _) 1
  have hscan : patternScanOut sampleEvents 2592000 1 =
    (1, .ok [⟨digest 1, 1, 2592000, 2, severitySoft⟩]) := by decide +kernel
  rw [hscan] at hone
  obtain ⟨hlen, hfindings⟩ := Prod.mk.inj hone
  rw [← hlen, if_pos (Nat.le_refl 1)] at hfindings
  rw [← Except.ok.inj hfindings] at hout
  exact hout

end AntsClient.Chain.Patterns
