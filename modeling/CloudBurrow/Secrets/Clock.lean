import CloudBurrow.Process.Duration
import CloudBurrow.Secrets.Records

namespace CloudBurrow.Secrets

open ParseInt Duration
open Tasks (Time)

def advanceOffset (P : Wellknown) (offset : Int) (d : Message) : Option Int :=
  if !P.checkDuration d then none
  else if P.asDuration d < 0 then none
  else some (wrap (offset + P.asDuration d))

structure AdvanceRequest (P : Wellknown) where
  message : Message
  valid : P.checkDuration message = true
  nonneg : 0 ≤ message.exact

inductive ClockEvent (P : Wellknown) where
  | advance (d : AdvanceRequest P)
  | reading (base : Time)

variable {P : Wellknown}

namespace ClockEvent

def requests (es : List (ClockEvent P)) : List (AdvanceRequest P) :=
  es.filterMap fun e => match e with
    | .advance d => some d
    | .reading _ => none

def bases (es : List (ClockEvent P)) : List Time :=
  es.filterMap fun e => match e with
    | .advance _ => none
    | .reading base => some base

end ClockEvent

def readings : Int → List (ClockEvent P) → List Time
  | _, [] => []
  | offset, .advance d :: es => readings ((advanceOffset P offset d.message).getD offset) es
  | offset, .reading base :: es => (base + offset) :: readings offset es

def NeverBack (ds : List (AdvanceRequest P)) : Prop :=
  ∀ es, ClockEvent.requests es = ds → (ClockEvent.bases es).Pairwise (· ≤ ·) →
    (readings 0 es).Pairwise fun t t' =>
      t ≤ t' ∧ ∀ sec : Secret, sec.expired t = true → sec.expired t' = true

def AdvanceRequest.span (d : AdvanceRequest P) : Int := P.asDuration d.message

def total (ds : List (AdvanceRequest P)) : Int := (ds.map AdvanceRequest.span).sum

section Offsets
variable {offset : Int} {ds : List (AdvanceRequest P)} {es : List (ClockEvent P)}

theorem AdvanceRequest.span_bounds (d : AdvanceRequest P) : 0 ≤ d.span ∧ d.span < 2 ^ 63 := by
  have hnonneg := d.nonneg
  rw [span, P.saturates _ d.valid, saturate_nonneg hnonneg, longest]
  omega

theorem advanceOffset_request (offset : Int) (d : AdvanceRequest P) :
    advanceOffset P offset d.message = some (wrap (offset + d.span)) := by
  have hnonneg := d.span_bounds.1
  rw [AdvanceRequest.span] at hnonneg
  rw [advanceOffset, if_neg (by simp [d.valid]), if_neg (not_lt.mpr hnonneg), AdvanceRequest.span]

theorem total_nonneg (ds : List (AdvanceRequest P)) : 0 ≤ total ds :=
  List.sum_nonneg fun x hx => by
    obtain ⟨d, -, rfl⟩ := List.mem_map.mp hx
    exact d.span_bounds.1

theorem expired_at_later {t t' : Time} (h : t ≤ t') (sec : Secret) (hexpired : sec.expired t = true) :
    sec.expired t' = true := by
  simp only [Secret.expired, decide_eq_true_eq] at hexpired ⊢
  exact ⟨hexpired.1, le_trans hexpired.2 h⟩

theorem total_cons (d : AdvanceRequest P) (ds : List (AdvanceRequest P)) :
    total (d :: ds) = d.span + total ds := List.sum_cons

theorem readings_advance (d : AdvanceRequest P) (hoffset : 0 ≤ offset)
    (hroom : offset + total (ClockEvent.requests (.advance d :: es)) < 2 ^ 63) :
    readings offset (.advance d :: es) = readings (offset + d.span) es ∧
      0 ≤ offset + d.span ∧ offset + d.span + total (ClockEvent.requests es) < 2 ^ 63 := by
  have hspan := d.span_bounds
  have hsum : total (ClockEvent.requests (.advance d :: es)) =
      d.span + total (ClockEvent.requests es) := total_cons d _
  have hrest := total_nonneg (ClockEvent.requests es)
  have hwrap : wrap (offset + d.span) = offset + d.span := by
    refine wrap_eq ?_
    unfold Fits
    omega
  refine ⟨?_, by omega, by omega⟩
  rw [readings, advanceOffset_request, Option.getD_some, hwrap]

theorem readings_above (hoffset : 0 ≤ offset)
    (hroom : offset + total (ClockEvent.requests es) < 2 ^ 63) {low t : Time}
    (hlow : ∀ base ∈ ClockEvent.bases es, low ≤ base) (ht : t ∈ readings offset es) :
    low + offset ≤ t := by
  induction es generalizing offset with
  | nil => cases ht
  | cons e es ih =>
    cases e with
    | advance d =>
      obtain ⟨hreadings, hoffset', hroom'⟩ := readings_advance d hoffset hroom
      rw [hreadings] at ht
      have habove := ih hoffset' hroom' hlow ht
      have hspan := d.span_bounds.1
      linarith
    | reading base =>
      obtain ⟨hbase, hlow⟩ := List.forall_mem_cons.mp hlow
      rcases List.mem_cons.mp ht with rfl | ht
      · exact Int.add_le_add_right hbase offset
      · exact ih hoffset hroom hlow ht

theorem readings_ordered (hoffset : 0 ≤ offset) (hroom : offset + total (ClockEvent.requests es) < 2 ^ 63)
    (hbases : (ClockEvent.bases es).Pairwise (· ≤ ·)) : (readings offset es).Pairwise (· ≤ ·) := by
  induction es generalizing offset with
  | nil => exact List.Pairwise.nil
  | cons e es ih =>
    cases e with
    | advance d =>
      obtain ⟨hreadings, hoffset', hroom'⟩ := readings_advance d hoffset hroom
      rw [hreadings]
      exact ih hoffset' hroom' hbases
    | reading base =>
      obtain ⟨hlater, hbases⟩ := List.pairwise_cons.mp hbases
      rw [readings]
      have hroom' : offset + total (ClockEvent.requests es) < 2 ^ 63 := hroom
      refine List.pairwise_cons.mpr ⟨fun t ht => ?_, ih hoffset hroom' hbases⟩
      exact readings_above hoffset hroom' hlater ht

theorem neverBack_of_total (h : total ds < 2 ^ 63) : NeverBack ds := by
  rintro es rfl hbases
  have hroom : 0 + total (ClockEvent.requests es) < 2 ^ 63 := by omega
  exact (readings_ordered le_rfl hroom hbases).imp fun hle => ⟨hle, expired_at_later hle⟩

theorem exists_crossing (hoffset : offset < 2 ^ 63) (h : 2 ^ 63 ≤ offset + total ds) :
    ∃ front d back, ds = front ++ d :: back ∧ offset + total front < 2 ^ 63 ∧
      2 ^ 63 ≤ offset + total front + d.span := by
  induction ds generalizing offset with
  | nil =>
    rw [total, List.map_nil, List.sum_nil] at h
    omega
  | cons d ds ih =>
    rw [total_cons] at h
    by_cases hcross : offset + d.span < 2 ^ 63
    · obtain ⟨front, d', back, rfl, hfront, hd'⟩ := ih hcross (by omega)
      refine ⟨d :: front, d', back, rfl, ?_, ?_⟩
      all_goals
        rw [total_cons]
        omega
    · refine ⟨[], d, ds, rfl, ?_, ?_⟩
      all_goals
        rw [total, List.map_nil, List.sum_nil]
        omega

theorem readings_requests (hoffset : 0 ≤ offset) (hroom : offset + total ds < 2 ^ 63) (es : List (ClockEvent P)) :
    readings offset (ds.map .advance ++ es) = readings (offset + total ds) es := by
  induction ds generalizing offset with
  | nil => simp [total]
  | cons d ds ih =>
    have hspan := d.span_bounds
    have hrest := total_nonneg ds
    rw [total_cons] at hroom ⊢
    have hwrap : wrap (offset + d.span) = offset + d.span := by
      refine wrap_eq ?_
      unfold Fits
      omega
    rw [List.map_cons, List.cons_append, readings, advanceOffset_request, Option.getD_some, hwrap,
      ih (by omega) (by omega), add_assoc]

theorem requests_advances (ds : List (AdvanceRequest P)) (es : List (ClockEvent P)) :
    ClockEvent.requests (ds.map .advance ++ es) = ds ++ ClockEvent.requests es := by
  simp [ClockEvent.requests, List.filterMap_append, List.filterMap_map]

theorem bases_advances (ds : List (AdvanceRequest P)) (es : List (ClockEvent P)) :
    ClockEvent.bases (ds.map .advance ++ es) = ClockEvent.bases es := by
  simp [ClockEvent.bases, List.filterMap_append, List.filterMap_map]

theorem total_of_neverBack (h : NeverBack ds) : total ds < 2 ^ 63 := by
  by_contra hover
  have hover' : 2 ^ 63 ≤ 0 + total ds := by omega
  obtain ⟨front, d, back, rfl, hfront, hcross⟩ := exists_crossing (by norm_num) hover'
  -- a reading on each side of the request, with the base clock standing still
  let es : List (ClockEvent P) := front.map .advance ++
    (.reading 0 :: .advance d :: .reading 0 :: back.map .advance)
  have hback : ClockEvent.requests (back.map .advance) = back := by
    simp [ClockEvent.requests, List.filterMap_map]
  have hrequests : ClockEvent.requests es = front ++ d :: back := by
    rw [requests_advances]
    exact congrArg (fun back => front ++ d :: back) hback
  have hbases : ClockEvent.bases es = [0, 0] := by
    have hnone : ClockEvent.bases (back.map .advance) = [] := by
      simp [ClockEvent.bases, List.filterMap_map]
    rw [bases_advances]
    exact congrArg (fun rest => 0 :: 0 :: rest) hnone
  have hspan := d.span_bounds
  have hwrap : wrap (0 + total front + d.span) = 0 + total front + d.span - 2 ^ 64 :=
    wrap_over ⟨by omega, by omega⟩
  have hordered := h es hrequests (by rw [hbases]; decide)
  rw [readings_requests le_rfl (by omega), readings, readings, advanceOffset_request,
    Option.getD_some, hwrap, readings] at hordered
  have hle : (0 : Int) + (0 + total front) ≤ 0 + (0 + total front + d.span - 2 ^ 64) :=
    ((List.pairwise_cons.mp hordered).1 _ List.mem_cons_self).1
  have hnonneg := total_nonneg front
  omega

theorem neverBack_iff (P : Wellknown) (ds : List (AdvanceRequest P)) : NeverBack ds ↔ total ds < 2 ^ 63 :=
  ⟨total_of_neverBack, neverBack_of_total⟩

def longestRequest : AdvanceRequest protobuf where
  message := ⟨315576000000, 0⟩
  valid := by decide
  nonneg := by decide

theorem clock_goes_back : ¬ NeverBack [longestRequest, longestRequest] := by
  intro h
  have hordered := h [.advance longestRequest, .reading 0, .advance longestRequest, .reading 0]
    rfl (by decide)
  have hreadings : readings 0 [.advance longestRequest, .reading 0, .advance longestRequest,
      .reading 0] = [2 ^ 63 - 1, -2] := by
    decide
  rw [hreadings] at hordered
  have hle := ((List.pairwise_cons.mp hordered).1 _ List.mem_cons_self).1
  revert hle
  decide

end Offsets

end CloudBurrow.Secrets
