import Dbx1000.RowLocal
import Dbx1000.RowRun

/-!
# Where the bytes of a row store come from

`Row_mvcc` never makes up bytes: every `RowItem` it fills is a copy of another one or of the row's slot in
the page. What holds of the slot and of all items in memory therefore holds after any call of `access`,
whatever is recycled or shared.
-/

namespace Dbx1000
namespace RowMvcc

variable {V : Type} {P : V → Prop} {g minTs ts : Nat} {s s' : RowMvcc V} {r : RowId}

/-- `P` holds of the slot of the page and of every item in memory. -/
structure AllBytes (P : V → Prop) (s : RowMvcc V) : Prop where
  page : P s.page
  mem : ∀ r v, s.mem r = some v → P v

namespace AllBytes

theorem of_eq (h : AllBytes P s) (hpage : s'.page = s.page) (hmem : s'.mem = s.mem) : AllBytes P s' :=
  ⟨by rw [hpage]; exact h.page, fun r v hv => h.mem r v (by rw [← hmem]; exact hv)⟩

/-- One item is written. -/
theorem update (h : AllBytes P s) {v : V} (hv : P v) (hpage : s'.page = s.page)
    (hmem : s'.mem = Function.update s.mem r (some v)) : AllBytes P s' := by
  refine ⟨by rw [hpage]; exact h.page, fun x w hw => ?_⟩
  rw [hmem] at hw
  by_cases hx : x = r
  · rw [hx, Function.update_self] at hw
    cases hw
    exact hv
  · rw [Function.update_of_ne hx] at hw
    exact h.mem x w hw

theorem withPage (h : AllBytes P s) {v : V} (hv : P v) : AllBytes P (s.withPage v) := ⟨hv, h.mem⟩

theorem setRow (h : AllBytes P s) {v : V} (hv : P v) : AllBytes P (s.setRow r v) := h.update hv rfl rfl

theorem withLatest (h : AllBytes P s) (hr : s.withLatest = some (s', r)) : AllBytes P s' := by
  rcases withLatest_cases hr with ⟨-, rfl⟩ | ⟨-, rfl, rfl⟩
  · exact h
  · exact h.update h.page rfl rfl

theorem serveLatest (h : AllBytes P s) (hr : s.serveLatest ts = some (s', r)) : AllBytes P s' := by
  simp only [RowMvcc.serveLatest, Option.bind_eq_bind, Option.bind_eq_some_iff, Prod.exists] at hr
  obtain ⟨t, x, ht, hr⟩ := hr
  cases hr
  exact (h.withLatest ht).of_eq rfl rfl

theorem bufferReq (h : AllBytes P s) {type : TsType} (hr : s.bufferReq type ts = some s') : AllBytes P s' := by
  unfold RowMvcc.bufferReq at hr
  split at hr
  · cases hr
    exact h.of_eq rfl rfl
  · obtain ⟨reqs, -, rfl⟩ := Option.map_eq_some_iff.1 hr
    exact h.of_eq rfl rfl

theorem collect (h : AllBytes P s) (hr : s.collect minTs = some s') : AllBytes P s' := by
  unfold RowMvcc.collect at hr
  split at hr
  · split at hr
    · simp only [Option.bind_eq_bind, Option.bind_eq_some_iff] at hr
      obtain ⟨x, -, hr⟩ := hr
      cases hr
      exact h.of_eq rfl rfl
    · cases hr
      exact h
  · cases hr
    exact h

theorem pickEntry (h : AllBytes P s) {idx : Nat} (hr : s.pickEntry g = some (s', idx)) : AllBytes P s' := by
  rcases pickEntry_cases hr with ⟨-, rfl, -⟩ | ⟨-, -, e, -, -, -, rfl⟩ | ⟨-, -, rfl, -⟩
  · exact h
  · exact h.of_eq rfl rfl
  · exact h.of_eq rfl rfl

theorem commit (h : AllBytes P s) (hr : s.commit ts r = some s') : AllBytes P s' := by
  obtain ⟨e, v, -, hv, -, -, rfl⟩ := commit_cases hr
  refine ⟨h.mem r v hv, fun x w hw => ?_⟩
  simp only [committed] at hw
  split at hw
  · cases hw
  · exact h.mem x w hw

variable [Inhabited V]

theorem reserveRow (h : AllBytes P s) (hd : P default) (hr : s.reserveRow g minTs ts = some (s', r)) :
    AllBytes P s' := by
  unfold RowMvcc.reserveRow at hr
  split at hr
  · cases hr
  · simp only [Option.bind_eq_bind, Option.bind_eq_some_iff, Prod.exists] at hr
    obtain ⟨t, ht, u, idx, hu, hr⟩ := hr
    have hu' := (h.collect ht).pickEntry hu
    unfold reserveEntry at hr
    simp only [Option.bind_eq_bind, Option.bind_eq_some_iff] at hr
    obtain ⟨e, -, hr⟩ := hr
    split at hr
    · cases hr
      exact hu'.of_eq rfl rfl
    · cases hr
      exact hu'.update hd rfl rfl

theorem grant (h : AllBytes P s) (hd : P default) (hr : s.grant g minTs ts = some (s', r)) : AllBytes P s' := by
  simp only [RowMvcc.grant, Option.bind_eq_bind, Option.bind_eq_some_iff, Prod.exists] at hr
  obtain ⟨t, x, ht, u, y, hu, v, hv, hr⟩ := hr
  cases hr
  have hu' := (h.reserveRow hd ht).withLatest hu
  exact hu'.update (hu'.mem y v hv) rfl rfl

theorem updateLoop (h : AllBytes P s) (hd : P default) {next : Nat} {qs qs' : List ReqEntry} {ws : List Wake}
    (hr : updateLoop g minTs ts next qs s = some (qs', s', ws)) : AllBytes P s' := by
  induction qs generalizing s qs' ws with
  | nil =>
    rw [RowMvcc.updateLoop] at hr
    cases hr
    exact h
  | cons q qs ih =>
    rcases updateLoop_cons hr with ⟨-, -, qs'', hrec, rfl⟩ | ⟨-, -, t, x, qs'', ws', hrec, rfl, rfl, hst⟩
    · exact ih h hrec
    · rcases hst with ⟨-, -, hst⟩ | ⟨-, -, hst⟩
      · exact ih (h.serveLatest hst) hrec
      · exact ih (h.grant hd hst) hrec

theorem updateBuffer (h : AllBytes P s) (hd : P default) {ws : List Wake}
    (hr : s.updateBuffer g minTs ts = some (s', ws)) : AllBytes P s' := by
  simp only [RowMvcc.updateBuffer, Option.bind_eq_bind, Option.bind_eq_some_iff, Prod.exists] at hr
  obtain ⟨qs, t, ws', ht, hr⟩ := hr
  cases hr
  exact (h.updateLoop hd ht).of_eq rfl rfl

theorem access (h : AllBytes P s) (hd : P default) {type : TsType} {o : Outcome}
    (hr : s.access g minTs ts type r = some (s', o)) : AllBytes P s' := by
  cases type with
  | rReq =>
    rcases readReq_cases hr with ⟨-, rfl, -⟩ | ⟨-, -, -, hb, -⟩ | ⟨x, -, -, hs, -⟩ | ⟨x, -, -, hs, -⟩
    · exact h
    · exact h.bufferReq hb
    · exact h.serveLatest hs
    · rcases readHistory_cases hs with ⟨-, hs⟩ | ⟨e, -, -, -, -, rfl, -⟩
      · exact h.withLatest hs
      · exact h
  | pReq =>
    rcases prewriteReq_cases hr with ⟨rfl, -⟩ | ⟨-, -, hb, -⟩ | ⟨x, -, -, -, hs, -⟩
    · exact h
    · exact h.bufferReq hb
    · exact h.grant hd hs
  | wReq =>
    obtain ⟨u, hu, hs⟩ := access_wReq hr
    exact (h.commit hu).updateBuffer hd hs
  | xpReq =>
    obtain ⟨u, hu, hs⟩ := access_xpReq hr
    obtain ⟨e, -, -, rfl⟩ := release_cases hu
    have hrel : AllBytes P (s.released e) := h.of_eq rfl rfl
    exact hrel.updateBuffer hd hs

end AllBytes

end RowMvcc

end Dbx1000
