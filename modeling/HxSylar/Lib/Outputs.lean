import HxSylar.Lib.Machine
import Mathlib.Data.List.Nodup

namespace HxSylar.Lib.Machine
variable {σ ι α κ : Type*} {M : Machine σ ι}

/-- A machine that writes a log. Where a step writes at most what was due before it, makes nothing due
that was not, and leaves nothing due with the key that it has written, a run writes at most once for
each key, and only what was due at its start. -/
theorem exec_due (log : σ → List α) (key : α → κ) (I : σ → Prop) (ok : ι → Prop) {Due : σ → α → Prop}
    (hstep : ∀ {s l t}, I s → ok l → M.step s l = some t → I t ∧ (∀ e, Due t e → Due s e) ∧
      (log t = log s ∨ ∃ e, log t = log s ++ [e] ∧ Due s e ∧ ∀ e', Due t e' → key e' ≠ key e))
    {s t : σ} {ls : List ι} (hs : I s) (hls : ∀ l ∈ ls, ok l) (h : M.exec s ls = some t) :
    ∃ new, log t = log s ++ new ∧ (new.map key).Nodup ∧ ∀ e ∈ new, Due s e := by
  induction ls generalizing s with
  | nil =>
    cases h
    exact ⟨[], (List.append_nil _).symm, List.nodup_nil, fun e he => absurd he List.not_mem_nil⟩
  | cons l ls ih =>
    obtain ⟨u, hu, h⟩ := Option.bind_eq_some_iff.mp h
    obtain ⟨hI, hdue, hlog⟩ := hstep hs (hls l List.mem_cons_self) hu
    obtain ⟨new, hnew, hnodup, hall⟩ := ih hI (fun l hl => hls l (List.mem_cons_of_mem _ hl)) h
    rcases hlog with hsame | ⟨e, hone, he, hkey⟩
    · exact ⟨new, by rw [hnew, hsame], hnodup, fun e he => hdue e (hall e he)⟩
    · refine ⟨e :: new, by rw [hnew, hone, List.append_assoc, List.singleton_append], ?_, ?_⟩
      · rw [List.map_cons, List.nodup_cons]
        refine ⟨fun hmem => ?_, hnodup⟩
        obtain ⟨e', he', hsame⟩ := List.mem_map.mp hmem
        exact hkey e' (hall e' he') hsame
      · intro e' he'
        rcases List.mem_cons.mp he' with rfl | he'
        · exact he
        · exact hdue e' (hall e' he')

end HxSylar.Lib.Machine
