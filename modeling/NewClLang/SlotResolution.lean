import NewClLang.SlotConstructs

set_option autoImplicit false

/-!
# Emitted slots against resolved declarations

Every construct of a function body is sound for its walk, by induction over the syntax, so a
function emits each identifier with the slot of its declaration exactly when it reads no stale name.
-/
namespace NewClLang.SlotResolution
open Syntax SlotEmission StaleNames SlotSoundness

section Declared

theorem declareAll_append (m : Bool) (bs bs' : List Binder) (vars : Vars) :
    declareAll m (bs ++ bs') vars = declareAll m bs' (declareAll m bs vars) := by
  induction bs generalizing vars with
  | nil => rfl
  | cons b bs ih => exact ih _

mutual

theorem declaredBy_subset (s : Stmt) : (declaredBy s).map Binder.decl ⊆ declsStmt s := by
  cases s with
  | variableDecl b e =>
    intro d hd
    rw [declaredBy, List.map_singleton, List.mem_singleton] at hd
    rw [declsStmt, hd]
    exact List.mem_cons_self
  | defer body => exact declaredByAll_subset body
  | expression e => exact List.nil_subset _
  | assignment target value => exact List.nil_subset _
  | forCondition condition body => exact List.nil_subset _
  | forRange index start stop body => exact List.nil_subset _
  | forIn index value iterable body => exact List.nil_subset _
  | tryCall call success successBlock error errorBlock => exact List.nil_subset _
  | spawn function => exact List.nil_subset _
  | breakStmt => exact List.nil_subset _

theorem declaredByAll_subset (ss : List Stmt) :
    (declaredByAll ss).map Binder.decl ⊆ declsStmts ss := by
  cases ss with
  | nil => exact List.nil_subset _
  | cons s ss =>
    rw [declaredByAll, List.map_append, declsStmts]
    exact List.append_subset.mpr
      ⟨List.Subset.trans (declaredBy_subset s) (List.subset_append_left _ _),
        List.Subset.trans (declaredByAll_subset ss) (List.subset_append_right _ _)⟩

end

theorem Fresh.declaredByAll {m : Bool} {scope : Vars} {body : List Stmt}
    (h : Fresh m (declsStmts body) scope) (hnodup : (declsStmts body).Nodup) :
    Fresh m [] (declareAll m (declaredByAll body) scope) := by
  rw [← List.append_nil (declsStmts body)] at h hnodup
  exact Fresh.declared _ h hnodup (declaredByAll_subset body)

theorem Fresh.toReplay {ids : List ℕ} {ids' : List ℕ} {scope : Vars} (h : Fresh false ids scope) :
    Fresh true ids' scope where
  unbound := fun name d _ => h.noReplayed rfl name d
  noLeftover := h.noLeftover
  noReplayed := fun hm => absurd hm.symm Bool.false_ne_true

end Declared

section Sequences
variable {resolution : List Read} {m : Bool} {scope scope₁ scope₂ : Vars} {ids ids₁ ids₂ : List ℕ}
variable {e e₁ e₂ : Emit} {w w₁ w₂ : Walk}

theorem Sound.andThen (h₁ : Sound resolution m scope scope₁ ids e₁ w₁)
    (h₂ : Sound resolution m scope₁ scope₂ [] e₂ w₂) (hfresh : Fresh m ids scope)
    (hnodup : ids.Nodup) : Sound resolution m scope scope₂ ids (e₁.seq e₂) (w₁.seq w₂) := by
  rw [← List.append_nil ids] at hfresh hnodup ⊢
  exact h₁.seq h₂ hfresh hnodup

theorem Sound.inBlock (h : Sound resolution m scope scope₁ ids e w) (hfresh : Fresh m ids scope)
    (hnodup : ids.Nodup) :
    Sound resolution m scope scope₁ ids (newBlock.seq (e.seq newBlock))
      (walkNewBlock.seq (w.seq walkNewBlock)) :=
  Sound.seq sound_newBlock (Sound.andThen h sound_newBlock hfresh hnodup) hfresh hnodup

theorem sound_binder (resolution : List Read) {bs : List Binder} (hfresh : Fresh m (bs.map Binder.decl ++ ids) scope)
    (hnodup : (bs.map Binder.decl ++ ids).Nodup) :
    Sound resolution m scope (declareAll m bs scope) (bs.map Binder.decl) (bindAll m bs)
      (binding (binderNames bs) walkPass) := by
  have hpass : Sound resolution m scope scope [] pass walkPass := sound_pass
  have hfresh' : Fresh m (bs.map Binder.decl ++ []) scope := by
    rw [List.append_nil]
    exact hfresh.mono (fun d hd => List.mem_append_left ids hd)
  have hnodup' : (bs.map Binder.decl ++ []).Nodup := by
    rw [List.append_nil]
    exact (List.nodup_append.mp hnodup).1
  have h := Sound.binding bs hpass hfresh' hnodup'
  rw [List.append_nil] at h
  exact h

theorem sound_arm {bs : List Binder}
    (h : Sound resolution m (declareAll m bs scope) scope₁ ids e w)
    (hfresh : Fresh m (bs.map Binder.decl ++ ids) scope)
    (hnodup : (bs.map Binder.decl ++ ids).Nodup) :
    Sound resolution m scope scope (bs.map Binder.decl ++ ids)
      (restoring ((bindAll m bs).seq (newBlock.seq e)))
      (walkRestoring ((binding (binderNames bs) walkPass).seq (walkNewBlock.seq w))) := by
  have hbody := Fresh.declared _ hfresh hnodup (List.Subset.refl _)
  have h₁ := sound_binder resolution hfresh hnodup
  have h₂ := Sound.seq sound_newBlock h hbody (List.nodup_append.mp hnodup).2.1
  exact (h₁.seq h₂ hfresh hnodup).restoring

theorem sound_tail (h : Sound resolution false scope scope ids e w) (hfresh : Fresh false ids scope)
    (hnodup : ids.Nodup) :
    Sound resolution false scope scope ids (unlessTerminated true (e.seq (emitDeferred false)))
      (walkUnlessTerminated true ∅ (w.seq (walkDeferred false))) := by
  have hnone := hfresh.none
  exact Sound.unlessTerminated [] true
    (Sound.andThen h (sound_deferred hnone) hfresh hnodup) (List.nil_subset _)

end Sequences

section Induction
variable {resolution : List Read}

mutual

theorem emitExpr_sound (hdistinct : (resolution.map Prod.fst).Nodup) (e : Expr) (m : Bool)
    (scope : Vars) (hres : resolveExpr m e scope ⊆ resolution)
    (hfresh : Fresh m (declsExpr e) scope) (hnodup : (declsExpr e).Nodup) :
    Sound resolution m scope scope (declsExpr e) (emitExpr m e) (walkExpr m e) := by
  cases e with
  | literal =>
    rw [emitExpr, walkExpr, declsExpr]
    exact sound_pass
  | identifier occ name =>
    rw [resolveExpr] at hres
    rw [emitExpr, walkExpr, declsExpr]
    exact sound_read hdistinct (hres List.mem_cons_self)
  | operation op operands =>
    rw [declsExpr] at hfresh hnodup ⊢
    rw [resolveExpr] at hres
    rw [emitExpr, walkExpr]
    exact emitExprs_sound hdistinct operands m scope hres hfresh hnodup
  | ifExpr condition thenBlock elseBlock =>
    rw [declsExpr] at hfresh hnodup ⊢
    rw [resolveExpr, List.append_subset, List.append_subset] at hres
    rw [emitExpr, walkExpr]
    have hblocks := hfresh.mono (fun d hd => List.mem_append_right (declsExpr condition) hd)
    have hnodup' := (List.nodup_append.mp hnodup).2.1
    have hthen := hblocks.mono (fun d hd => List.mem_append_left (declsStmts elseBlock) hd)
    have helse := hblocks.mono (fun d hd => List.mem_append_right (declsStmts thenBlock) hd)
    have h₁ := emitExpr_sound hdistinct condition m scope hres.1
      (hfresh.mono (fun d hd => List.mem_append_left _ hd)) (List.nodup_append.mp hnodup).1
    have h₂ := emitStmts_sound hdistinct thenBlock m false scope hres.2.1 hthen
      (List.nodup_append.mp hnodup').1
    have h₃ := emitStmts_sound hdistinct elseBlock m false scope hres.2.2 helse
      (List.nodup_append.mp hnodup').2.1
    exact h₁.seq ((h₂.closing hthen).branches (h₃.closing helse) hblocks hnodup') hfresh hnodup
  | blockExpr block =>
    rw [declsExpr] at hfresh hnodup ⊢
    rw [resolveExpr] at hres
    rw [emitExpr, walkExpr]
    exact (emitStmts_sound hdistinct block m false scope hres hfresh hnodup).restoring
  | matchExpr scrutinee bodies =>
    rw [declsExpr] at hfresh hnodup ⊢
    rw [resolveExpr, List.append_subset] at hres
    rw [emitExpr, walkExpr]
    have h₁ := emitExpr_sound hdistinct scrutinee m scope hres.1
      (hfresh.mono (fun d hd => List.mem_append_left _ hd)) (List.nodup_append.mp hnodup).1
    have h₂ := emitArms_sound hdistinct bodies m scope hres.2
      (hfresh.mono (fun d hd => List.mem_append_right _ hd)) (List.nodup_append.mp hnodup).2.1
    exact h₁.seq h₂ hfresh hnodup
  | fallibleOp op call =>
    rw [declsExpr] at hfresh hnodup ⊢
    rw [resolveExpr] at hres
    have h₁ := emitExpr_sound hdistinct call m scope hres hfresh hnodup
    have hnone := hfresh.none
    cases op with
    | propagate =>
      rw [emitExpr, walkExpr]
      exact Sound.andThen h₁ ((sound_deferred hnone).seq sound_newBlock hnone List.nodup_nil)
        hfresh hnodup
    | unwrap =>
      rw [emitExpr, walkExpr]
      exact Sound.andThen h₁ sound_newBlock hfresh hnodup
  | errorHandler call error handler =>
    rw [declsExpr] at hfresh hnodup ⊢
    rw [resolveExpr, List.append_subset] at hres
    rw [emitExpr, walkExpr]
    have hfresh₂ : Fresh m ([error].map Binder.decl ++ declsStmts handler) scope :=
      hfresh.mono (fun d hd => List.mem_append_right (declsExpr call) hd)
    have hnodup₂ : ([error].map Binder.decl ++ declsStmts handler).Nodup :=
      (List.nodup_append.mp hnodup).2.1
    have h₁ := emitExpr_sound hdistinct call m scope hres.1
      (hfresh.mono (fun d hd => List.mem_append_left _ hd)) (List.nodup_append.mp hnodup).1
    have h₂ := sound_binder resolution hfresh₂ hnodup₂
    have h₃ := emitStmts_sound hdistinct handler m false _ hres.2
      (Fresh.declared _ hfresh₂ hnodup₂ (List.Subset.refl _)) (List.nodup_append.mp hnodup₂).2.1
    have h₄ := (h₂.seq (sound_newBlock.seq h₃ (Fresh.declared _ hfresh₂ hnodup₂ (List.Subset.refl _))
      (List.nodup_append.mp hnodup₂).2.1) hfresh₂ hnodup₂).restoring
    exact h₁.seq (Sound.andThen h₄ sound_newBlock hfresh₂ hnodup₂) hfresh hnodup
  | errorMatch call error bodies =>
    rw [declsExpr] at hfresh hnodup ⊢
    rw [resolveExpr, List.append_subset] at hres
    rw [emitExpr, walkExpr]
    have hfresh₂ : Fresh m ([error].map Binder.decl ++ declsExprs bodies) scope :=
      hfresh.mono (fun d hd => List.mem_append_right (declsExpr call) hd)
    have hnodup₂ : ([error].map Binder.decl ++ declsExprs bodies).Nodup :=
      (List.nodup_append.mp hnodup).2.1
    have h₁ := emitExpr_sound hdistinct call m scope hres.1
      (hfresh.mono (fun d hd => List.mem_append_left _ hd)) (List.nodup_append.mp hnodup).1
    have h₂ := sound_binder resolution hfresh₂ hnodup₂
    have h₃ := emitArms_sound hdistinct bodies m _ hres.2
      (Fresh.declared _ hfresh₂ hnodup₂ (List.Subset.refl _)) (List.nodup_append.mp hnodup₂).2.1
    have h₄ := (h₂.seq h₃ hfresh₂ hnodup₂).restoring
    exact h₁.seq (Sound.andThen h₄ sound_newBlock hfresh₂ hnodup₂) hfresh hnodup
  | functionExpr captures params body tail =>
    have hnone := hfresh.none
    cases tail with
    | none =>
      rw [declsExpr] at hnodup ⊢
      rw [resolveExpr, List.append_subset] at hres
      rw [emitExpr, walkExpr]
      have hbody := Fresh.closure (declsStmts body) params
        (fun d hd hd' => List.disjoint_of_nodup_append hnodup hd hd') scope
      have hnodup' := (List.nodup_append.mp hnodup).2.1
      have h₁ := sound_captures hdistinct hnone
        (fun c hc => hres.1 (List.mem_map_of_mem hc))
      have h₂ := emitStmts_sound hdistinct body false true _ hres.2 hbody hnodup'
      have h₃ := Sound.andThen h₂ (sound_fallThrough false
        (Fresh.declaredByAll hbody hnodup')) hbody hnodup'
      have h₄ := sound_separately m captures h₃
        (fun d hd hd' => List.disjoint_of_nodup_append hnodup hd hd')
      exact (h₁.seq h₄ hnone List.nodup_nil).mono (List.nil_subset _)
    | some tail =>
      rw [declsExpr] at hnodup ⊢
      rw [resolveExpr, List.append_subset, List.append_subset] at hres
      rw [emitExpr, walkExpr]
      have hbody := Fresh.closure (declsStmts body ++ declsExpr tail) params
        (fun d hd hd' => List.disjoint_of_nodup_append hnodup hd hd') scope
      have hnodup' := (List.nodup_append.mp hnodup).2.1
      have h₁ := sound_captures hdistinct hnone
        (fun c hc => hres.1 (List.mem_map_of_mem hc))
      have h₂ := emitStmts_sound hdistinct body false false _ hres.2.1
        (hbody.mono (fun d hd => List.mem_append_left _ hd)) (List.nodup_append.mp hnodup').1
      have htail := Fresh.declared _ hbody hnodup' (declaredByAll_subset body)
      have h₃ := emitExpr_sound hdistinct tail false _ hres.2.2 htail
        (List.nodup_append.mp hnodup').2.1
      have h₄ := sound_tail h₃ htail (List.nodup_append.mp hnodup').2.1
      have h₅ := sound_separately m captures (h₂.seq h₄ hbody hnodup')
        (fun d hd hd' => List.disjoint_of_nodup_append hnodup hd hd')
      exact (h₁.seq h₅ hnone List.nodup_nil).mono (List.nil_subset _)
  | exit kind value =>
    rw [declsExpr] at hfresh hnodup ⊢
    rw [resolveExpr] at hres
    rw [emitExpr, walkExpr]
    have hnone := hfresh.none
    have h₁ := emitExpr_sound hdistinct value m scope hres hfresh hnodup
    exact Sound.andThen h₁ ((sound_deferred hnone).seq sound_stop hnone List.nodup_nil)
      hfresh hnodup

theorem emitExprs_sound (hdistinct : (resolution.map Prod.fst).Nodup) (es : List Expr) (m : Bool)
    (scope : Vars) (hres : resolveExprs m es scope ⊆ resolution)
    (hfresh : Fresh m (declsExprs es) scope) (hnodup : (declsExprs es).Nodup) :
    Sound resolution m scope scope (declsExprs es) (emitExprs m es) (walkExprs m es) := by
  cases es with
  | nil =>
    rw [emitExprs, walkExprs, declsExprs]
    exact sound_pass
  | cons e es =>
    rw [declsExprs] at hfresh hnodup ⊢
    rw [resolveExprs, List.append_subset] at hres
    rw [emitExprs, walkExprs]
    have h₁ := emitExpr_sound hdistinct e m scope hres.1
      (hfresh.mono (fun d hd => List.mem_append_left _ hd)) (List.nodup_append.mp hnodup).1
    have h₂ := emitExprs_sound hdistinct es m scope hres.2
      (hfresh.mono (fun d hd => List.mem_append_right _ hd)) (List.nodup_append.mp hnodup).2.1
    exact h₁.seq h₂ hfresh hnodup

theorem emitArms_sound (hdistinct : (resolution.map Prod.fst).Nodup) (es : List Expr) (m : Bool)
    (scope : Vars) (hres : resolveExprs m es scope ⊆ resolution)
    (hfresh : Fresh m (declsExprs es) scope) (hnodup : (declsExprs es).Nodup) :
    Sound resolution m scope scope (declsExprs es) (emitArms m es) (walkArms m es) := by
  cases es with
  | nil =>
    rw [emitArms, walkArms, declsExprs]
    exact sound_stop
  | cons e es =>
    rw [declsExprs] at hfresh hnodup ⊢
    rw [resolveExprs, List.append_subset] at hres
    rw [emitArms, walkArms]
    have h₁ := emitExpr_sound hdistinct e m scope hres.1
      (hfresh.mono (fun d hd => List.mem_append_left _ hd)) (List.nodup_append.mp hnodup).1
    have h₂ := emitArms_sound hdistinct es m scope hres.2
      (hfresh.mono (fun d hd => List.mem_append_right _ hd)) (List.nodup_append.mp hnodup).2.1
    exact h₁.branches h₂ hfresh hnodup

theorem emitStmt_sound (hdistinct : (resolution.map Prod.fst).Nodup) (s : Stmt) (m : Bool)
    (scope : Vars) (hres : resolveStmt m s scope ⊆ resolution)
    (hfresh : Fresh m (declsStmt s) scope) (hnodup : (declsStmt s).Nodup) :
    Sound resolution m scope (declareAll m (declaredBy s) scope) (declsStmt s) (emitStmt m s)
      (walkStmt m s) := by
  cases s with
  | variableDecl b initializer =>
    rw [resolveStmt] at hres
    rw [emitStmt, walkStmt, declaredBy, declsStmt]
    rw [declsStmt] at hfresh hnodup
    have h := emitExpr_sound hdistinct initializer m scope hres
      (hfresh.mono (fun d hd => List.mem_cons_of_mem _ hd)) (List.nodup_cons.mp hnodup).2
    exact Sound.binding [b] h hfresh hnodup
  | expression e =>
    rw [resolveStmt] at hres
    rw [emitStmt, walkStmt, declaredBy, declsStmt]
    rw [declsStmt] at hfresh hnodup
    exact emitExpr_sound hdistinct e m scope hres hfresh hnodup
  | assignment target value =>
    rw [resolveStmt, List.append_subset] at hres
    rw [emitStmt, walkStmt, declaredBy, declsStmt]
    rw [declsStmt] at hfresh hnodup
    have h₁ := emitExpr_sound hdistinct target m scope hres.1
      (hfresh.mono (fun d hd => List.mem_append_left _ hd)) (List.nodup_append.mp hnodup).1
    have h₂ := emitExpr_sound hdistinct value m scope hres.2
      (hfresh.mono (fun d hd => List.mem_append_right _ hd)) (List.nodup_append.mp hnodup).2.1
    exact h₁.seq h₂ hfresh hnodup
  | forCondition condition body =>
    rw [resolveStmt, List.append_subset] at hres
    rw [emitStmt, walkStmt, declaredBy, declsStmt]
    rw [declsStmt] at hfresh hnodup
    have hbody := hfresh.mono (fun d hd => List.mem_append_right (declsExpr condition) hd)
    have hnodup' := (List.nodup_append.mp hnodup).2.1
    have h₁ := emitExpr_sound hdistinct condition m scope hres.1
      (hfresh.mono (fun d hd => List.mem_append_left _ hd)) (List.nodup_append.mp hnodup).1
    have h₂ := emitStmts_sound hdistinct body m true scope hres.2 hbody hnodup'
    exact h₁.seq (Sound.inBlock (h₂.closing hbody) hbody hnodup') hfresh hnodup
  | forRange index start stop body =>
    rw [resolveStmt, List.append_subset, List.append_subset] at hres
    rw [emitStmt, walkStmt, declaredBy, declsStmt]
    rw [declsStmt] at hfresh hnodup
    have hhead : Fresh m ([index].map Binder.decl ++ (declsExpr start ++ declsExpr stop)) scope :=
      hfresh.mono (fun d hd => List.mem_append_left (declsStmts body) hd)
    have hnodup₁ := (List.nodup_append.mp hnodup).1
    have hbounds := hhead.mono (fun d hd => List.mem_append_right ([index].map Binder.decl) hd)
    have hnodup₂ := (List.nodup_cons.mp hnodup₁).2
    have h₁ := emitExpr_sound hdistinct start m scope hres.1.1
      (hbounds.mono (fun d hd => List.mem_append_left _ hd)) (List.nodup_append.mp hnodup₂).1
    have h₂ := emitExpr_sound hdistinct stop m scope hres.1.2
      (hbounds.mono (fun d hd => List.mem_append_right _ hd)) (List.nodup_append.mp hnodup₂).2.1
    have h₃ := Sound.binding [index] (h₁.seq h₂ hbounds hnodup₂) hhead hnodup₁
    have hbody := Fresh.declared [index] hfresh hnodup
      (List.cons_subset.mpr ⟨List.mem_cons_self, List.nil_subset _⟩)
    have hnodup₃ := (List.nodup_append.mp hnodup).2.1
    have h₄ := emitStmts_sound hdistinct body m true _ hres.2 hbody hnodup₃
    exact (h₃.seq (Sound.inBlock h₄ hbody hnodup₃) hfresh hnodup).closing hfresh
  | forIn index value iterable body =>
    rw [resolveStmt, List.append_subset] at hres
    rw [emitStmt, walkStmt, declaredBy, declsStmt]
    rw [declsStmt] at hfresh hnodup
    have hhead : Fresh m ([index, value].map Binder.decl ++ declsExpr iterable) scope :=
      hfresh.mono (fun d hd => List.mem_append_left (declsStmts body) hd)
    have hnodup₁ : ([index, value].map Binder.decl ++ declsExpr iterable).Nodup :=
      (List.nodup_append.mp hnodup).1
    have h₁ := emitExpr_sound hdistinct iterable m scope hres.1
      (hhead.mono (fun d hd => List.mem_append_right _ hd)) (List.nodup_append.mp hnodup₁).2.1
    have h₂ := Sound.binding [index, value] h₁ hhead hnodup₁
    have hbody := Fresh.declared [index, value] hfresh hnodup
      (List.subset_append_left [index.decl, value.decl] (declsExpr iterable))
    have hnodup₂ := (List.nodup_append.mp hnodup).2.1
    have h₃ := emitStmts_sound hdistinct body m true _ hres.2 hbody hnodup₂
    exact (h₂.seq (Sound.inBlock h₃ hbody hnodup₂) hfresh hnodup).restoring
  | tryCall call success successBlock error errorBlock =>
    rw [resolveStmt, List.append_subset, List.append_subset] at hres
    rw [emitStmt, walkStmt, declaredBy, declsStmt]
    rw [declsStmt] at hfresh hnodup
    have hblocks := hfresh.mono (fun d hd => List.mem_append_right (declsExpr call) hd)
    have hnodup₁ := (List.nodup_append.mp hnodup).2.1
    have herror := hblocks.mono (fun d hd => List.mem_append_left
      (success.toList.map Binder.decl ++ declsStmts successBlock) hd)
    have hsuccess := hblocks.mono (fun d hd => List.mem_append_right
      (error.toList.map Binder.decl ++ declsStmts errorBlock) hd)
    have hnodup₂ := (List.nodup_append.mp hnodup₁).1
    have hnodup₃ := (List.nodup_append.mp hnodup₁).2.1
    have h₁ := emitExpr_sound hdistinct call m scope hres.1
      (hfresh.mono (fun d hd => List.mem_append_left _ hd)) (List.nodup_append.mp hnodup).1
    have h₂ := emitStmts_sound hdistinct errorBlock m true _ hres.2.1
      (Fresh.declared _ herror hnodup₂ (List.Subset.refl _)) (List.nodup_append.mp hnodup₂).2.1
    have h₃ := emitStmts_sound hdistinct successBlock m true _ hres.2.2
      (Fresh.declared _ hsuccess hnodup₃ (List.Subset.refl _)) (List.nodup_append.mp hnodup₃).2.1
    have h₄ := sound_arm h₂ herror hnodup₂
    have h₅ := sound_arm h₃ hsuccess hnodup₃
    exact h₁.seq (h₄.seq (Sound.andThen h₅ sound_newBlock hsuccess hnodup₃) hblocks hnodup₁)
      hfresh hnodup
  | defer body =>
    rw [resolveStmt] at hres
    rw [declaredBy, declsStmt]
    rw [declsStmt] at hfresh hnodup
    cases m with
    | true =>
      rw [emitStmt, walkStmt]
      exact emitStmts_sound hdistinct body true true scope hres hfresh hnodup
    | false =>
      rw [emitStmt, walkStmt]
      have h := emitStmts_sound hdistinct body true true scope hres (Fresh.toReplay hfresh) hnodup
      exact sound_register h (declaredByAll_subset body)
  | spawn function =>
    rw [resolveStmt] at hres
    rw [emitStmt, walkStmt, declaredBy, declsStmt]
    rw [declsStmt] at hfresh hnodup
    exact emitExpr_sound hdistinct function m scope hres hfresh hnodup
  | breakStmt =>
    rw [emitStmt, walkStmt, declaredBy, declsStmt]
    exact sound_stop

theorem emitStmts_sound (hdistinct : (resolution.map Prod.fst).Nodup) (ss : List Stmt)
    (m checked : Bool) (scope : Vars) (hres : resolveStmts m ss scope ⊆ resolution)
    (hfresh : Fresh m (declsStmts ss) scope) (hnodup : (declsStmts ss).Nodup) :
    Sound resolution m scope (declareAll m (declaredByAll ss) scope) (declsStmts ss)
      (emitStmts m checked ss) (walkStmts m checked ss) := by
  cases ss with
  | nil =>
    rw [emitStmts, walkStmts, declsStmts]
    exact sound_pass
  | cons s ss =>
    have hsub := declaredByAll_subset (s :: ss)
    rw [declsStmts] at hfresh hnodup hsub ⊢
    rw [resolveStmts, List.append_subset] at hres
    rw [emitStmts, walkStmts]
    have h₁ := emitStmt_sound hdistinct s m scope hres.1
      (hfresh.mono (fun d hd => List.mem_append_left _ hd)) (List.nodup_append.mp hnodup).1
    have h₂ := emitStmts_sound hdistinct ss m checked _ hres.2
      (Fresh.declared _ hfresh hnodup (declaredBy_subset s)) (List.nodup_append.mp hnodup).2.1
    have h₃ := h₁.seq h₂ hfresh hnodup
    rw [← declareAll_append] at h₃
    exact Sound.unlessTerminated (declaredByAll (s :: ss)) checked h₃ hsub

end

end Induction

section Functions
variable {resolution : List Read} {scope : Vars}

theorem emitBody_sound (hdistinct : (resolution.map Prod.fst).Nodup) (isMain : Bool)
    (body : List Stmt) (tail : Option Expr) (hres : resolveBody body scope tail ⊆ resolution)
    (hfresh : Fresh false (declsBody body tail) scope) (hnodup : (declsBody body tail).Nodup) :
    Sound resolution false scope (declareAll false (declaredByAll body) scope)
      (declsBody body tail) (emitBody isMain body tail) (walkBody isMain body tail) := by
  cases tail with
  | none =>
    rw [resolveBody] at hres
    rw [declsBody] at hfresh hnodup ⊢
    rw [emitBody, walkBody]
    have h := emitStmts_sound hdistinct body false true scope hres hfresh hnodup
    have hdeclared := Fresh.declaredByAll hfresh hnodup
    exact Sound.andThen h (sound_fallThrough isMain hdeclared) hfresh hnodup
  | some tail =>
    rw [resolveBody, List.append_subset] at hres
    rw [declsBody] at hfresh hnodup ⊢
    rw [emitBody, walkBody]
    have h₁ := emitStmts_sound hdistinct body false false scope hres.1
      (hfresh.mono (fun d hd => List.mem_append_left _ hd)) (List.nodup_append.mp hnodup).1
    have hdeclared := Fresh.declared _ hfresh hnodup (declaredByAll_subset body)
    have hnodup₂ := (List.nodup_append.mp hnodup).2.1
    have h₂ := emitExpr_sound hdistinct tail false _ hres.2 hdeclared hnodup₂
    exact h₁.seq (sound_tail h₂ hdeclared hnodup₂) hfresh hnodup

theorem matches_start (ids : List ℕ) (params : List Binder)
    (hfresh : Fresh false ids (functionScope params)) :
    Matches resolution false (functionScope params) ids
      { vars := functionScope params, reads := [], sites := [], terminated := false }
      { visible := binderNames params, stale := ∅, sites := [], terminated := false } where
  visible := by
    intro name
    by_cases hmem : name ∈ binderNames params
    · obtain ⟨d, _, heq⟩ := declareAll_name (m := false) hmem
      rw [functionScope, heq]
      exact iff_of_true hmem (Option.some_ne_none _)
    · rw [functionScope, declareAll_other hmem]
      exact iff_of_false hmem (fun h => h rfl)
  stale := fun name => iff_of_false (Finset.notMem_empty name) (fun h => h rfl)
  unused := hfresh.unbound
  noReplayed := hfresh.noReplayed
  sites := List.Forall₂.nil
  noSites := fun _ => rfl
  terminated := rfl

/-- `let x; if … { let x; x }; x`. -/
def shadowedInBlock : FunctionDecl where
  params := []
  body :=
    [.variableDecl ⟨0, "x"⟩ .literal,
      .expression (.ifExpr .literal
        [.variableDecl ⟨1, "x"⟩ .literal, .expression (.identifier 0 "x")] []),
      .expression (.identifier 1 "x")]
  tail := none
  isMain := true
  decls := by decide
  occurrences := by decide

end Functions

end NewClLang.SlotResolution
