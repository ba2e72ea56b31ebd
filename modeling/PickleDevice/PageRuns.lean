import PickleDevice.CommandRuns

namespace PickleDevice

open Interaction Program PickleDeviceManager

inductive MapRun (mmapId ptr paddr : UInt64) : List SysEvent → Bool → Prop
  | mapped {fd fd' c : ℤ} {t : List SysEvent} {ok : Bool} (hfd : 0 ≤ fd) (hfd' : 0 ≤ fd')
      (h : CommandRun PickleDeviceCommand.addWatchRange.toUInt64 (rangeBytes paddr) t ok) :
      MapRun mmapId ptr paddr ([⟨.openDevice true, fd⟩, ⟨.mmap 4096 fd, ptr⟩, ⟨.openDevice true, fd'⟩,
        ⟨.ioctlMmapPaddr fd' mmapId, ((0, paddr) : ℤ × UInt64)⟩, ⟨.close fd', c⟩,
        ⟨.storeByte ptr 0x42, ()⟩] ++ t) ok

theorem not_runs_exit {α : Type} {code : ℤ} {f : Syscall.Answer (.exit code) → SysProgram α}
    {trace : List SysEvent} {a : α} : ¬ Runs (syscall (.exit code) >>= f) trace a := by
  intro h
  obtain ⟨never, -⟩ := runs_request_bind.mp h
  nomatch never

theorem allocatePage_runs {length : ℕ} {trace : List SysEvent} {ptr : UInt64}
    (h : Runs (allocatePage length) trace (true, ptr)) :
    ptr ≠ mapFailed ∧
      ∃ fd : ℤ, 0 ≤ fd ∧ trace = [⟨.openDevice true, fd⟩, ⟨.mmap length fd, ptr⟩] := by
  unfold allocatePage at h
  obtain ⟨fd, t₁, h₁, rfl⟩ := runs_request_bind.mp h
  split at h₁
  case isTrue hfd => cases (runs_pure.mp h₁).2
  case isFalse hfd =>
    obtain ⟨mmapPtr, t₂, h₂, rfl⟩ := runs_request_bind.mp h₁
    split at h₂
    case isTrue hptr =>
      obtain ⟨c, t₃, h₃, rfl⟩ := runs_request_bind.mp h₂
      cases (runs_pure.mp h₃).2
    case isFalse hptr =>
      obtain ⟨rfl, he⟩ := runs_pure.mp h₂
      obtain ⟨-, rfl⟩ := Prod.mk.inj he
      exact ⟨hptr, fd, Int.not_lt.mp hfd, rfl⟩

theorem getPaddr_runs {query : ℤ → SysProgram (ℤ × UInt64)} {paddr₀ : UInt64}
    {trace : List SysEvent} {answer : Bool × UInt64} (h : Runs (getPaddr query paddr₀) trace answer) :
    (∃ fd : ℤ, fd < 0 ∧ trace = [⟨.openDevice true, fd⟩] ∧ answer = (false, paddr₀)) ∨
    ∃ (fd err c : ℤ) (found : UInt64) (t : List SysEvent), 0 ≤ fd ∧ Runs (query fd) t (err, found) ∧
      trace = ⟨.openDevice true, fd⟩ :: (t ++ [⟨.close fd, c⟩]) ∧
      answer = if err ≠ 0 then (false, paddr₀) else (true, found) := by
  obtain ⟨fd, t₁, h₁, rfl⟩ := runs_request_bind.mp h
  split at h₁
  case isTrue hfd =>
    obtain ⟨rfl, rfl⟩ := runs_pure.mp h₁
    exact Or.inl ⟨fd, hfd, rfl, rfl⟩
  case isFalse hfd =>
    obtain ⟨⟨err, found⟩, t₂, t₃, h₂, h₃, rfl⟩ := runs_bind.mp h₁
    refine Or.inr ⟨fd, err, ?_⟩
    dsimp only at h₃
    split at h₃
    case isTrue herr =>
      obtain ⟨c, t₄, h₄, rfl⟩ := runs_request_bind.mp h₃
      obtain ⟨rfl, rfl⟩ := runs_pure.mp h₄
      exact ⟨c, found, t₂, Int.not_lt.mp hfd, h₂, rfl, (if_pos herr).symm⟩
    case isFalse herr =>
      obtain ⟨c, t₄, h₄, rfl⟩ := runs_request_bind.mp h₃
      obtain ⟨rfl, rfl⟩ := runs_pure.mp h₄
      exact ⟨c, found, t₂, Int.not_lt.mp hfd, h₂, rfl, (if_neg herr).symm⟩

theorem getMmapPaddr_runs {mmapId paddr₀ paddr : UInt64} {trace : List SysEvent}
    (h : Runs (getMmapPaddr mmapId paddr₀) trace (true, paddr)) :
    ∃ fd c : ℤ, 0 ≤ fd ∧ trace = [⟨.openDevice true, fd⟩,
      ⟨.ioctlMmapPaddr fd mmapId, ((0, paddr) : ℤ × UInt64)⟩, ⟨.close fd, c⟩] := by
  obtain ⟨fd, -, -, hanswer⟩ | ⟨fd, err, c, found, t, hfd, hquery, rfl, hanswer⟩ := getPaddr_runs h
  · cases hanswer
  · split_ifs at hanswer with herr
    · cases hanswer
    · obtain ⟨-, rfl⟩ := Prod.mk.inj hanswer
      obtain rfl := not_not.mp herr
      obtain rfl := runs_request.mp hquery
      exact ⟨fd, c, hfd, rfl⟩

theorem registerUncacheablePage_ptr (m : PickleDeviceManager) (mmapId ptr paddr : UInt64) :
    (m.registerUncacheablePage mmapId ptr paddr).mmapIdToUcPtrMap mmapId = some ptr :=
  UnorderedMap.insert_self _ _ _

theorem registerUncacheablePage_paddr (m : PickleDeviceManager) (mmapId ptr paddr : UInt64) :
    (m.registerUncacheablePage mmapId ptr paddr).mmapIdToUcPaddrMap mmapId = some paddr :=
  UnorderedMap.insert_self _ _ _

theorem writeUncacheablePagePaddr_registered {m m' : PickleDeviceManager}
    {mmapId paddr : UInt64} {trace : List SysEvent} {ok : Bool}
    (hpaddr : m.mmapIdToUcPaddrMap mmapId = some paddr) (hp : ∀ e ∈ trace, Possible e)
    (h : Runs (m.writeUncacheablePagePaddr mmapId) trace (ok, m')) :
    m' = m ∧ CommandRun PickleDeviceCommand.addWatchRange.toUInt64 (rangeBytes paddr) trace ok := by
  unfold writeUncacheablePagePaddr at h
  rw [UnorderedMap.fetch_of_some hpaddr] at h
  obtain ⟨success, t₁, t₂, h₁, h₂, rfl⟩ := runs_bind.mp h
  obtain ⟨rfl, he⟩ := runs_pure.mp h₂
  obtain ⟨rfl, rfl⟩ := Prod.mk.inj he
  rw [List.append_nil] at hp ⊢
  refine ⟨rfl, ?_⟩
  apply commandRun_of_runs (rangeBytes_lt paddr) hp
  rw [rangeBytes_length]
  exact h₁

theorem mapUCPage_runs {m m' : PickleDeviceManager} {mmapId : UInt64} {trace : List SysEvent}
    (hp : ∀ e ∈ trace, Possible e) (h : Runs (m.mapUCPage mmapId) trace m') :
    ∃ ptr paddr ok, ptr ≠ mapFailed ∧ MapRun mmapId ptr paddr trace ok ∧
      m' = m.registerUncacheablePage mmapId ptr paddr := by
  unfold mapUCPage at h
  obtain ⟨⟨allocateSuccess, ptr⟩, t₁, t₂, h₁, h₂, rfl⟩ := runs_bind.mp h
  cases allocateSuccess with
  | false =>
    exact absurd h₂ not_runs_exit
  | true =>
    obtain ⟨hptr, fd, hfd, rfl⟩ := allocatePage_runs h₁
    obtain ⟨⟨getPaddrSuccess, paddr⟩, t₃, t₄, h₃, h₄, rfl⟩ := runs_bind.mp h₂
    cases getPaddrSuccess with
    | false =>
      exact absurd h₄ not_runs_exit
    | true =>
      obtain ⟨fd', c, hfd', rfl⟩ := getMmapPaddr_runs h₃
      obtain ⟨stored, t₅, h₅, rfl⟩ := runs_request_bind.mp h₄
      obtain ⟨⟨ok, m₁⟩, t₆, t₇, h₆, h₇, rfl⟩ := runs_bind.mp h₅
      obtain ⟨rfl, rfl⟩ := runs_pure.mp h₇
      have hp₆ : ∀ e ∈ t₆, Possible e := fun e he => hp e (by simp [he])
      obtain ⟨rfl, hrun⟩ := writeUncacheablePagePaddr_registered
        (registerUncacheablePage_paddr m mmapId ptr paddr) hp₆ h₆
      refine ⟨ptr, paddr, ok, hptr, ?_, rfl⟩
      rw [List.append_nil]
      exact .mapped hfd hfd' hrun

theorem getUCPagePtr_runs {m m' : PickleDeviceManager} {mmapId ptr : UInt64} {trace : List SysEvent}
    (hp : ∀ e ∈ trace, Possible e) (h : Runs (m.getUCPagePtr mmapId) trace (ptr, m')) :
    (m.mmapIdToUcPtrMap mmapId = some ptr ∧ trace = [] ∧ m' = m) ∨
      (m.mmapIdToUcPtrMap mmapId = none ∧ ptr ≠ mapFailed ∧ ∃ paddr ok,
        MapRun mmapId ptr paddr trace ok ∧ m' = m.registerUncacheablePage mmapId ptr paddr) := by
  unfold getUCPagePtr at h
  dsimp only at h
  split at h
  case isTrue hnone =>
    obtain ⟨m₁, t₁, t₂, h₁, h₂, rfl⟩ := runs_bind.mp h
    obtain ⟨rfl, he⟩ := runs_pure.mp h₂
    rw [List.append_nil] at hp ⊢
    obtain ⟨mmapPtr, paddr, ok, hptr, hrun, rfl⟩ := mapUCPage_runs hp h₁
    rw [UnorderedMap.fetch_of_some (registerUncacheablePage_ptr m mmapId mmapPtr paddr)] at he
    obtain ⟨rfl, rfl⟩ := Prod.mk.inj he
    exact .inr ⟨hnone, hptr, paddr, ok, hrun, rfl⟩
  case isFalse hsome =>
    obtain ⟨found, hfound⟩ := Option.ne_none_iff_exists'.mp hsome
    obtain ⟨m₁, t₁, t₂, h₁, h₂, rfl⟩ := runs_bind.mp h
    obtain ⟨rfl, rfl⟩ := runs_pure.mp h₁
    obtain ⟨rfl, he⟩ := runs_pure.mp h₂
    rw [UnorderedMap.fetch_of_some hfound] at he
    obtain ⟨rfl, rfl⟩ := Prod.mk.inj he
    exact .inl ⟨hfound, rfl, rfl⟩

end PickleDevice
