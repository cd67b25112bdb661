import GatedRules.Proofs.Entries
import Mathlib

/-!
# Quotas and counters

Requests for a quota under one key, with any requests about other keys in between, are told what is
left: the quota that the first of them brings less all that was taken before, and never less than
nothing (`Store.quotas_run_down`). Later quotas do not count. The floor at zero does not disturb the
sum because nothing negative is taken: what has run out stays so. In the same way the requests that
count one more under a key are told how many they are.

The answers are those of `drain`, which only knows the amounts; so they are computed without a
store.
-/

namespace GatedRules

namespace Store

/-- The quotas and the amounts to be taken in the requests for a quota under a key. -/
def takings (k : Key) (requests : List StoreRequest) : List (Int × Int) :=
  requests.filterMap fun
    | .takeQuota key quota taken => if key = k then some (quota, taken) else none
    | _ => none

/-- The results of the requests about a key. -/
def resultsOn (k : Key) (history : List StoreEvent) : List (Except StoreFault StoreReply) :=
  (history.filter fun event => k ∈ event.request.keys).map StoreEvent.result

/-- What is left whenever an amount is taken. -/
def drain (available : Int) : List Int → List Int
  | [] => []
  | taken :: more => available :: drain (max (available - taken) 0) more

/-! ### Amounts -/

section

variable {available : Int} {taken : List Int}

/-- What is left never grows. -/
theorem le_of_mem_drain (h : 0 ≤ available) (htaken : ∀ t ∈ taken, 0 ≤ t) :
    ∀ n ∈ drain available taken, n ≤ available := by
  induction taken generalizing available with
  | nil => simp [drain]
  | cons t taken ih =>
    intro n hn
    have ht := htaken t List.mem_cons_self
    have hrest := ih (le_max_right (available - t) 0) fun u hu =>
      htaken u (List.mem_cons_of_mem _ hu)
    obtain rfl | hn := List.mem_cons.1 hn
    · exact le_rfl
    · exact (hrest n hn).trans (by omega)

theorem pairwise_drain (h : 0 ≤ available) (htaken : ∀ t ∈ taken, 0 ≤ t) :
    (drain available taken).Pairwise fun n later => later ≤ n := by
  induction taken generalizing available with
  | nil => exact .nil
  | cons t taken ih =>
    have hrest : ∀ u ∈ taken, 0 ≤ u := fun u hu => htaken u (List.mem_cons_of_mem _ hu)
    have ht := htaken t List.mem_cons_self
    refine .cons (fun n hn => ?_) (ih (le_max_right _ _) hrest)
    exact (le_of_mem_drain (le_max_right _ _) hrest n hn).trans (by omega)

/-- What is left is the amount at first less the sum of what was taken before, or nothing. -/
theorem drain_eq (h : 0 ≤ available) (htaken : ∀ t ∈ taken, 0 ≤ t) :
    drain available taken =
      (List.range taken.length).map fun i => max 0 (available - (taken.take i).sum) := by
  induction taken generalizing available with
  | nil => rfl
  | cons t taken ih =>
    have hrest : ∀ u ∈ taken, 0 ≤ u := fun u hu => htaken u (List.mem_cons_of_mem _ hu)
    rw [drain, ih (le_max_right _ _) hrest, List.length_cons, List.range_succ_eq_map, List.map_cons,
      List.map_map]
    congr 1
    · simp [h]
    · refine List.map_congr_left fun i _ => ?_
      -- where the floor is reached, the sum of the rest is not negative
      have hsum : 0 ≤ (taken.take i).sum :=
        List.sum_nonneg fun u hu => hrest u (List.mem_of_mem_take hu)
      rw [Function.comp_apply, List.take_succ_cons, List.sum_cons]
      omega

/-- If one is taken each time, something is left as often as the amount at first says. -/
theorem countP_drain_ones (h : 0 ≤ available) (htaken : ∀ t ∈ taken, t = 1) :
    (drain available taken).countP (fun n => 0 < n) = min available.toNat taken.length := by
  induction taken generalizing available with
  | nil => simp [drain]
  | cons t taken ih =>
    obtain rfl : t = 1 := htaken t List.mem_cons_self
    have hrest := ih (le_max_right (available - 1) 0) fun u hu =>
      htaken u (List.mem_cons_of_mem _ hu)
    rw [drain, List.countP_cons, hrest, List.length_cons]
    split
    · have hpos : 0 < available := of_decide_eq_true ‹_›
      omega
    · have hzero : ¬ 0 < available := fun hpos => ‹¬ _› (decide_eq_true hpos)
      omega

end

/-! ### Requests about one key -/

variable {s : Store} {k : Key} {requests : List StoreRequest}

theorem resultsOn_of_mem {r : StoreRequest} (h : k ∈ r.keys) :
    resultsOn k (s.history (r :: requests)) =
      (s.perform r).1 :: resultsOn k ((s.perform r).2.history requests) := by
  rw [resultsOn, history, List.filter_cons_of_pos (by simpa using h), List.map_cons, resultsOn]

theorem resultsOn_of_not_mem {r : StoreRequest} (h : k ∉ r.keys) :
    resultsOn k (s.history (r :: requests)) = resultsOn k ((s.perform r).2.history requests) := by
  rw [resultsOn, history, List.filter_cons_of_neg (by simpa using h), resultsOn]

theorem takings_of_not_mem {r : StoreRequest} (h : k ∉ r.keys) :
    takings k (r :: requests) = takings k requests := by
  refine List.filterMap_cons_none ?_
  cases r with
  | takeQuota key quota taken => exact if_neg fun he => h (List.mem_singleton.2 he.symm)
  | _ => rfl

/-- What is taken under a key is what the requests about the key take. -/
theorem nonneg_of_mem_takings (h : ∀ r ∈ requests, k ∈ r.keys →
    ∃ quota taken, r = .takeQuota k quota taken ∧ 0 ≤ taken) :
    ∀ t ∈ (takings k requests).map Prod.snd, 0 ≤ t := by
  intro t ht
  obtain ⟨⟨quota, taken⟩, htaking, rfl⟩ := List.mem_map.1 ht
  obtain ⟨r, hr, hmatch⟩ := List.mem_filterMap.1 htaking
  cases r with
  | takeQuota key quota' taken' =>
    dsimp only at hmatch
    split at hmatch
    · rename_i hkey
      cases hmatch
      obtain ⟨_, _, heq, hnonneg⟩ := h _ hr (List.mem_singleton.2 hkey.symm)
      cases heq
      exact hnonneg
    · cases hmatch
  | _ => cases hmatch

theorem perform_takeQuota {quota available : Int} (taken : Int)
    (h : (s.entry? k).getD (.number quota) = .number available) :
    (s.perform (.takeQuota k quota taken)).1 = .ok (.amount available) ∧
      Store.entry? (s.perform (.takeQuota k quota taken)).2 k =
        some (.number (max (available - taken) 0)) := by
  simp only [perform, takeQuota, entry?_log, h]
  exact ⟨rfl, (entry?_put ..).trans (if_pos rfl)⟩

theorem perform_increment {count : Int} (h : (s.entry? k).getD (.number 0) = .number count) :
    (s.perform (.increment k)).1 = .ok (.amount (count + 1)) ∧
      Store.entry? (s.perform (.increment k)).2 k = some (.number (count + 1)) := by
  simp only [perform, increment, entry?_log, h]
  exact ⟨rfl, (entry?_put ..).trans (if_pos rfl)⟩

/-- Where the first request for a quota finds an amount, all of them are told what is left. -/
theorem resultsOn_takings {available : Int}
    (honly : ∀ r ∈ requests, k ∈ r.keys → ∃ quota taken, r = .takeQuota k quota taken)
    (h : ∀ first ∈ (takings k requests).head?,
      (s.entry? k).getD (.number first.1) = .number available) :
    resultsOn k (s.history requests) =
      (drain available ((takings k requests).map Prod.snd)).map fun n => .ok (.amount n) := by
  induction requests generalizing s available with
  | nil => rfl
  | cons r requests ih =>
    have hrest : ∀ r ∈ requests, k ∈ r.keys → ∃ quota taken, r = .takeQuota k quota taken :=
      fun r hr => honly r (List.mem_cons_of_mem _ hr)
    by_cases hk : k ∈ r.keys
    · obtain ⟨quota, taken, rfl⟩ := honly r List.mem_cons_self hk
      have htakings : takings k (.takeQuota k quota taken :: requests) =
          (quota, taken) :: takings k requests :=
        List.filterMap_cons_some (if_pos rfl)
      rw [htakings] at h ⊢
      obtain ⟨hanswer, hentry⟩ := perform_takeQuota taken (h _ rfl)
      rw [resultsOn_of_mem hk, hanswer, ih hrest fun first _ => by rw [hentry]; rfl]
      rfl
    · rw [takings_of_not_mem hk] at h ⊢
      rw [resultsOn_of_not_mem hk]
      exact ih hrest fun first hfirst => by rw [entry?_perform_of_not_mem hk]; exact h first hfirst

/-- Requests that count one more are told the numbers that follow. -/
theorem resultsOn_increments {count : Int} (honly : ∀ r ∈ requests, k ∈ r.keys → r = .increment k)
    (h : (s.entry? k).getD (.number 0) = .number count) :
    resultsOn k (s.history requests) =
      (List.range (requests.countP fun r => k ∈ r.keys)).map fun (i : Nat) =>
        .ok (.amount (count + i + 1)) := by
  induction requests generalizing s count with
  | nil => rfl
  | cons r requests ih =>
    have hrest : ∀ r ∈ requests, k ∈ r.keys → r = .increment k :=
      fun r hr => honly r (List.mem_cons_of_mem _ hr)
    by_cases hk : k ∈ r.keys
    · obtain rfl := honly r List.mem_cons_self hk
      obtain ⟨hanswer, hentry⟩ := perform_increment h
      rw [resultsOn_of_mem hk, hanswer, ih hrest (by rw [hentry]; rfl),
        List.countP_cons_of_pos (by simpa using hk), List.range_succ_eq_map, List.map_cons,
        List.map_map]
      congr 1
      · simp
      · refine List.map_congr_left fun i _ => ?_
        have hcount : count + 1 + i + 1 = count + (i + 1 : Nat) + 1 := by omega
        rw [Function.comp_apply, hcount]
    · rw [resultsOn_of_not_mem hk, List.countP_cons_of_neg (by simpa using hk)]
      exact ih hrest (by rwa [entry?_perform_of_not_mem hk])

/-- **Quotas run down, and counters count.** Let a store serve requests, and let there be no entry
under a key at first. If all requests about this key ask for a quota, and the first of them brings a
quota that is not negative, and nothing negative is taken, then each is told what the first quota
exceeds all that was taken before, or zero; so the answers never increase and never exceed the first
quota, and if one is taken each time, as many of them are positive as the quota says, or all of
them. If all requests about the key count one more, the answers are one, two, and so on. -/
theorem quotas_run_down {s : Store} {k : Key} (hnew : s.entry? k = none)
    (requests : List StoreRequest) :
    (∀ quota, 0 ≤ quota →
      (∀ r ∈ requests, k ∈ r.keys → ∃ later taken, r = .takeQuota k later taken ∧ 0 ≤ taken) →
      (∀ first ∈ (takings k requests).head?, first.1 = quota) →
      ∃ amounts : List Int,
        resultsOn k (s.history requests) = amounts.map (fun n => .ok (.amount n)) ∧
        amounts = (List.range (takings k requests).length).map (fun i =>
          max 0 (quota - (((takings k requests).take i).map Prod.snd).sum)) ∧
        amounts.Pairwise (fun n later => later ≤ n) ∧ (∀ n ∈ amounts, n ≤ quota) ∧
        ((∀ taking ∈ takings k requests, taking.2 = 1) →
          amounts.countP (fun n => 0 < n) = min quota.toNat amounts.length)) ∧
    ((∀ r ∈ requests, k ∈ r.keys → r = .increment k) →
      resultsOn k (s.history requests) =
        (List.range (requests.countP fun r => k ∈ r.keys)).map fun (i : Nat) =>
          .ok (.amount (i + 1))) := by
  refine ⟨fun quota hquota honly hfirst => ?_, fun honly => ?_⟩
  · have htaken : ∀ t ∈ (takings k requests).map Prod.snd, 0 ≤ t :=
      nonneg_of_mem_takings fun r hr hk => honly r hr hk
    refine ⟨drain quota ((takings k requests).map Prod.snd), ?_, ?_, pairwise_drain hquota htaken,
      le_of_mem_drain hquota htaken, fun hones => ?_⟩
    · refine resultsOn_takings (fun r hr hk => ?_) fun first hf => ?_
      · obtain ⟨later, taken, rfl, -⟩ := honly r hr hk
        exact ⟨later, taken, rfl⟩
      · rw [hnew, ← hfirst first hf]
        rfl
    · rw [drain_eq hquota htaken, List.length_map]
      exact List.map_congr_left fun i _ => by rw [List.map_take]
    · have hones : ∀ t ∈ (takings k requests).map Prod.snd, t = 1 := by
        intro t ht
        obtain ⟨taking, htaking, rfl⟩ := List.mem_map.1 ht
        exact hones taking htaking
      rw [countP_drain_ones hquota hones, drain_eq hquota htaken]
      simp only [List.length_map, List.length_range]
  · have hzero : (s.entry? k).getD (.number 0) = .number 0 := by rw [hnew]; rfl
    simpa only [zero_add] using resultsOn_increments honly hzero

/-- Two takings exhaust a quota while a counter counts. -/
theorem quotas_run_down_beside_counter :
    let quota : Key := ⟨[1]⟩
    let counter : Key := ⟨[2]⟩
    let requests : List StoreRequest := [.takeQuota quota 3 2, .increment counter,
      .takeQuota quota 9 2, .increment counter, .takeQuota quota 3 1]
    empty.entry? quota = none ∧ empty.entry? counter = none ∧
      resultsOn quota (empty.history requests) = [3, 1, 0].map (fun n => .ok (.amount n)) ∧
      resultsOn counter (empty.history requests) = [1, 2].map (fun n => .ok (.amount n)) := by
  intro quota counter requests
  refine ⟨rfl, rfl, ?_, ?_⟩
  · have honly : ∀ r ∈ requests, quota ∈ r.keys →
        ∃ later taken, r = .takeQuota quota later taken ∧ 0 ≤ taken := by
      simp [requests, StoreRequest.keys, quota, counter]
    obtain ⟨amounts, hresults, hamounts, -⟩ :=
      (quotas_run_down (rfl : empty.entry? quota = none) requests).1 3 (by decide) honly
        (by rintro first ⟨⟩; rfl)
    rw [hresults, hamounts]
    rfl
  · have honly : ∀ r ∈ requests, counter ∈ r.keys → r = .increment counter := by
      simp [requests, StoreRequest.keys, quota, counter]
    rw [(quotas_run_down (rfl : empty.entry? counter = none) requests).2 honly]
    rfl

end Store

end GatedRules
