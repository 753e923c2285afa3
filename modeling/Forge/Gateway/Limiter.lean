import Forge.Common.Machine
import Mathlib.Algebra.Order.Field.Basic
import Mathlib.Algebra.Order.Field.Rat
import Mathlib.Tactic.Linarith
import Mathlib.Tactic.NormNum
import Mathlib.Tactic.Positivity

/-!
# The rate limiter of the gateway

The limiter is a bucket of tokens. A call fills it with the tokens of the time since the last
call, but not over its capacity, and then takes the tokens that it asks for, if there are so
many. Numbers of tokens are rational here, with the exact sums and products.

The tokens in the bucket, less those that the clock has given so far, are a potential: a call
lets it fall by what it takes. A window of calls starts with a bucket that is at most full.
-/

namespace Forge.Gateway

open Forge.Common

/-- The limiter. Times are in nanoseconds, the rate is in tokens a second. -/
structure RateLimiter where
  rate : ℚ
  capacity : ℚ
  tokens : ℚ
  lastRefill : ℤ
deriving DecidableEq, Repr

/-- A request of tokens at a time. -/
structure Request where
  now : ℤ
  n : ℚ
deriving DecidableEq, Repr

/-- The duration between two times, which does not leave the range of 64-bit integers. -/
def sub (now before : ℤ) : ℤ := max (-2 ^ 63) (min (2 ^ 63 - 1) (now - before))

/-- A duration in seconds. -/
def seconds (duration : ℤ) : ℚ := duration / 10 ^ 9

namespace RateLimiter

/-- A limiter with a full bucket. -/
def new (rate capacity : ℚ) (now : ℤ) : RateLimiter := ⟨rate, capacity, capacity, now⟩

/-- The limiter with the tokens of the time since the last call. -/
def refill (rl : RateLimiter) (now : ℤ) : RateLimiter :=
  let elapsed := seconds (sub now rl.lastRefill)
  { rl with tokens := min rl.capacity (rl.tokens + elapsed * rl.rate), lastRefill := now }

/-- Take tokens, if there are so many. -/
def allowN (rl : RateLimiter) (now : ℤ) (n : ℚ) : Bool × RateLimiter :=
  let rl := rl.refill now
  if rl.tokens ≥ n then (true, { rl with tokens := rl.tokens - n }) else (false, rl)

/-- Take one token. -/
def allow (rl : RateLimiter) (now : ℤ) : Bool × RateLimiter := rl.allowN now 1

/-- The limiter after a request. -/
def after (rl : RateLimiter) (request : Request) : RateLimiter := (rl.allowN request.now request.n).2

/-- The tokens that a request is given. -/
def given (rl : RateLimiter) (request : Request) : ℚ :=
  if (rl.allowN request.now request.n).1 then request.n else 0

/-- The limiter after requests. -/
def run (rl : RateLimiter) (requests : List Request) : RateLimiter := requests.foldl after rl

/-- The tokens that requests are given together. -/
def admitted (rl : RateLimiter) (requests : List Request) : ℚ := spent after given rl requests

/-- The bucket is neither overfull nor overdrawn. -/
structure WellFilled (rl : RateLimiter) : Prop where
  rate_nonneg : 0 ≤ rl.rate
  tokens_nonneg : 0 ≤ rl.tokens
  tokens_le : rl.tokens ≤ rl.capacity

/-- A request of no negative number of tokens, not before the last one. -/
def Timely (rl : RateLimiter) (request : Request) : Prop := rl.lastRefill ≤ request.now ∧ 0 ≤ request.n

end RateLimiter

/-- The seconds between the first and the last of some requests. -/
def elapsed : List Request → ℚ
  | [] => 0
  | first :: rest => seconds ((rest.getLastD first).now - first.now)

/-! ### One call -/

/-- More time is more seconds. -/
theorem seconds_mono {a b : ℤ} (h : a ≤ b) : seconds a ≤ seconds b :=
  div_le_div_of_nonneg_right (Int.cast_le.mpr h) (by norm_num)

/-- The seconds of a difference. -/
theorem seconds_sub (a b : ℤ) : seconds (a - b) = seconds a - seconds b := by
  unfold seconds
  rw [Int.cast_sub, sub_div]

/-- No time is no seconds. -/
theorem seconds_zero : seconds 0 = 0 := by
  unfold seconds
  rw [Int.cast_zero, zero_div]

/-- Time that does not run backwards is measured as not negative. -/
theorem sub_nonneg_of_le {now before : ℤ} (h : before ≤ now) : 0 ≤ sub now before := by
  unfold sub
  omega

/-- Time that does not run backwards is measured as no more than it is. -/
theorem sub_le_of_le {now before : ℤ} (h : before ≤ now) : sub now before ≤ now - before := by
  unfold sub
  omega

namespace RateLimiter

@[simp] theorem refill_rate (rl : RateLimiter) (now : ℤ) : (rl.refill now).rate = rl.rate := rfl

@[simp] theorem refill_capacity (rl : RateLimiter) (now : ℤ) : (rl.refill now).capacity = rl.capacity := rfl

@[simp] theorem refill_lastRefill (rl : RateLimiter) (now : ℤ) : (rl.refill now).lastRefill = now := rfl

/-- A call takes what it is given, and nothing else after the refill. -/
theorem after_eq (rl : RateLimiter) (request : Request) :
    rl.after request = { rl.refill request.now with
      tokens := (rl.refill request.now).tokens - rl.given request } := by
  unfold after given allowN
  simp only
  split
  · rfl
  · simp only [Bool.false_eq_true, if_false, sub_zero]

@[simp] theorem after_rate (rl : RateLimiter) (request : Request) : (rl.after request).rate = rl.rate := by
  rw [after_eq, refill_rate]

@[simp] theorem after_capacity (rl : RateLimiter) (request : Request) :
    (rl.after request).capacity = rl.capacity := by
  rw [after_eq, refill_capacity]

@[simp] theorem after_lastRefill (rl : RateLimiter) (request : Request) :
    (rl.after request).lastRefill = request.now := by
  rw [after_eq, refill_lastRefill]

/-- A call is given at most what is in the bucket after the refill, and nothing negative. -/
theorem given_bounds {rl : RateLimiter} {request : Request} (hn : 0 ≤ request.n)
    (hfilled : 0 ≤ (rl.refill request.now).tokens) :
    0 ≤ rl.given request ∧ rl.given request ≤ (rl.refill request.now).tokens := by
  unfold given allowN
  simp only
  split
  · rename_i henough
    exact ⟨hn, henough⟩
  · exact ⟨le_rfl, hfilled⟩

/-- A refill keeps the bucket well filled. -/
theorem WellFilled.refill {rl : RateLimiter} (h : rl.WellFilled) {now : ℤ} (htime : rl.lastRefill ≤ now) :
    (rl.refill now).WellFilled := by
  have helapsed : 0 ≤ seconds (sub now rl.lastRefill) := seconds_zero ▸ seconds_mono (sub_nonneg_of_le htime)
  have hgain := mul_nonneg helapsed h.rate_nonneg
  exact ⟨h.rate_nonneg, le_min (h.tokens_nonneg.trans h.tokens_le) (add_nonneg h.tokens_nonneg hgain),
    min_le_left _ _⟩

/-- A call keeps the bucket well filled. -/
theorem WellFilled.after {rl : RateLimiter} (h : rl.WellFilled) {request : Request} (htimely : rl.Timely request) :
    (rl.after request).WellFilled := by
  have hrefill := h.refill htimely.1
  obtain ⟨hnonneg, hle⟩ := given_bounds htimely.2 hrefill.tokens_nonneg
  rw [after_eq]
  exact ⟨h.rate_nonneg, sub_nonneg.mpr hle, (sub_le_self _ hnonneg).trans hrefill.tokens_le⟩

/-- After a call the bucket and what the call was given are at most the capacity. -/
theorem after_add_given_le (rl : RateLimiter) (request : Request) :
    (rl.after request).tokens + rl.given request ≤ rl.capacity := by
  rw [after_eq, sub_add_cancel]
  exact min_le_left _ _

/-- The tokens in the bucket, less those that the clock has given so far. -/
def potential (rl : RateLimiter) : ℚ := rl.tokens - seconds rl.lastRefill * rl.rate

/-- A call lets the potential fall by what it is given. -/
theorem potential_after {rl : RateLimiter} (h : rl.WellFilled) {request : Request} (htimely : rl.Timely request) :
    (rl.after request).potential + rl.given request ≤ rl.potential := by
  have hgain : (rl.refill request.now).tokens ≤
      rl.tokens + seconds (sub request.now rl.lastRefill) * rl.rate := min_le_right _ _
  have hmeasured : seconds (sub request.now rl.lastRefill) * rl.rate ≤
      (seconds request.now - seconds rl.lastRefill) * rl.rate := by
    rw [← seconds_sub]
    exact mul_le_mul_of_nonneg_right (seconds_mono (sub_le_of_le htimely.1)) h.rate_nonneg
  rw [sub_mul] at hmeasured
  unfold potential
  rw [after_lastRefill, after_rate, after_eq]
  simp only
  linarith

/-! ### A run -/

/-- After calls that are timely the bucket is well filled, and the potential fell by what they were given. -/
theorem WellFilled.run {rl : RateLimiter} (h : rl.WellFilled) {requests : List Request}
    (htimely : (Machine.ofStep RateLimiter.after).Along Timely rl requests) :
    (rl.run requests).WellFilled ∧ (rl.run requests).potential + rl.admitted requests ≤ rl.potential :=
  potential_add_spent_le potential given WellFilled Timely
    (fun _ _ hfilled hcall => ⟨hfilled.after hcall, potential_after hfilled hcall⟩) h htimely

/-- The rate stays. -/
@[simp] theorem run_rate (rl : RateLimiter) (requests : List Request) : (rl.run requests).rate = rl.rate := by
  induction requests generalizing rl with
  | nil => rfl
  | cons request requests ih => exact (ih _).trans (after_rate rl request)

/-- The capacity stays. -/
@[simp] theorem run_capacity (rl : RateLimiter) (requests : List Request) :
    (rl.run requests).capacity = rl.capacity := by
  induction requests generalizing rl with
  | nil => rfl
  | cons request requests ih => exact (ih _).trans (after_capacity rl request)

/-- The last refill was at the last call. -/
theorem run_lastRefill (rl : RateLimiter) (request : Request) (requests : List Request) :
    ((rl.after request).run requests).lastRefill = (requests.getLastD request).now := by
  induction requests generalizing rl request with
  | nil => exact after_lastRefill rl request
  | cons next requests ih =>
    rw [List.getLastD_cons]
    exact ih (rl.after request) next

/-- With a clock that does not run backwards every call is timely. -/
theorem timely_of_isChain {rl : RateLimiter} {requests : List Request}
    (hclock : (rl.lastRefill :: requests.map Request.now).IsChain (· ≤ ·)) (hn : ∀ request ∈ requests, 0 ≤ request.n) :
    (Machine.ofStep after).Along Timely rl requests := by
  induction requests generalizing rl with
  | nil => trivial
  | cons request requests ih =>
    obtain ⟨hfirst, hclock⟩ := List.isChain_cons_cons.mp hclock
    refine Machine.along_ofStep_cons.mpr ⟨⟨hfirst, hn request List.mem_cons_self⟩, ih ?_ ?_⟩
    · rwa [after_lastRefill]
    · exact fun later hlater => hn later (List.mem_cons_of_mem _ hlater)

/-- What a window of calls is given is at most the capacity and the tokens of its time. -/
theorem admitted_le {rl : RateLimiter} (h : rl.WellFilled) {window : List Request}
    (htimely : (Machine.ofStep after).Along Timely rl window) :
    rl.admitted window ≤ rl.capacity + rl.rate * elapsed window := by
  cases window with
  | nil =>
    have hcapacity := h.tokens_nonneg.trans h.tokens_le
    simpa [admitted, spent, elapsed] using hcapacity
  | cons first rest =>
    obtain ⟨hfirst, hrest⟩ := Machine.along_ofStep_cons.mp htimely
    obtain ⟨hend, hfall⟩ := (h.after hfirst).run hrest
    have hfull := rl.after_add_given_le first
    have hsplit : rl.admitted (first :: rest) = rl.given first + (rl.after first).admitted rest := rfl
    have htokens := hend.tokens_nonneg
    unfold potential at hfall
    rw [run_lastRefill, run_rate, after_rate, after_lastRefill] at hfall
    rw [hsplit, elapsed, seconds_sub]
    linarith

/-- After every call the bucket is neither overfull nor overdrawn, and every window of
consecutive calls is given at most the capacity and the tokens of the time between its first and
its last call. -/
theorem rateLimiter_honours_bound (rate capacity : ℚ) (created : ℤ) (requests : List Request)
    (hrate : 0 ≤ rate) (hcapacity : 0 ≤ capacity) (hn : ∀ request ∈ requests, 0 ≤ request.n)
    (hclock : (created :: requests.map Request.now).IsChain (· ≤ ·)) :
    (∀ before rest, requests = before ++ rest →
        0 ≤ ((new rate capacity created).run before).tokens ∧
          ((new rate capacity created).run before).tokens ≤ capacity) ∧
      ∀ before window rest, requests = before ++ (window ++ rest) →
        ((new rate capacity created).run before).admitted window ≤ capacity + rate * elapsed window := by
  have hnew : (new rate capacity created).WellFilled := ⟨hrate, hcapacity, le_rfl⟩
  have htimely : (Machine.ofStep after).Along Timely (new rate capacity created) requests :=
    timely_of_isChain hclock hn
  refine ⟨fun before rest hsplit => ?_, fun before window rest hsplit => ?_⟩
  · rw [hsplit, Machine.along_ofStep_append] at htimely
    have hfilled := (hnew.run htimely.1).1
    refine ⟨hfilled.tokens_nonneg, ?_⟩
    simpa [new] using hfilled.tokens_le
  · rw [hsplit, Machine.along_ofStep_append, Machine.along_ofStep_append] at htimely
    have hwindow := admitted_le (hnew.run htimely.1).1 htimely.2.1
    simpa [new] using hwindow

/-- The last two of three calls, with ten tokens a second. -/
theorem rateLimiter_honours_bound_full :
    ((new 10 2 0).run [⟨0, 1⟩]).admitted [⟨0, 1⟩, ⟨50000000, 1⟩] ≤ 2 + 10 * elapsed [⟨0, 1⟩, ⟨50000000, 1⟩] :=
  (rateLimiter_honours_bound 10 2 0 [⟨0, 1⟩, ⟨0, 1⟩, ⟨50000000, 1⟩] (by norm_num) (by norm_num)
    (by simp) (by simp)).2 [⟨0, 1⟩] [⟨0, 1⟩, ⟨50000000, 1⟩] [] rfl

end RateLimiter

end Forge.Gateway
