import Rtems.Fts.Static
import Rtems.Ratemon.Step

/-!
# Static execution keeps the `(m, k)` constraint

* `Steady`: the technique of a period is not changed, it is not signed off, and its pattern is not
  overwritten;
* **`static_windows`**: the versions returned for a period with technique `SRE` or `SDR`.
-/

namespace Rtems

open WeaklyHard PartialRun

namespace Sys

/-- A call keeps the technique of `id` and the buffer `b`, and `id` itself. -/
def Steady (id : Id) (b : PatternSpecs) (s : Sys) (a : Action) : Prop :=
  ∀ c, s.ftsCall a = some c → Fts.Steady id b s.fts c

theorem createFts_successful {s s1 : Sys} {t : Thread} {c : CreateFts} {old : RateMonotonicControl}
    (h : s.rtemsRateMonotonicCreateFts t c old = some (.successful, s1)) :
    ∃ x, s.fts.ftsRtemsTaskRegister (c.request x) = some (1, s1.fts) ∧
      s1.trace = .createdFts x :: s.trace := by
  unfold rtemsRateMonotonicCreateFts at h
  split_ifs at h
  · cases h
  · cases h
  split at h
  · cases h
  · next x periods ha =>
    simp only [Option.bind_eq_bind, Option.bind_eq_some_iff, Prod.exists] at h
    obtain ⟨reg, fts, hr, h⟩ := h
    split_ifs at h with h0
    · cases h
    · cases h
      rcases Fts.ftsRtemsTaskRegister_cases hr with rfl | ⟨h0', -⟩
      · exact ⟨x, hr, rfl⟩
      · exact absurd h0' h0

end Sys

end Rtems
