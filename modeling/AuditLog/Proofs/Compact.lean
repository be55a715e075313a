import AuditLog.Proofs.Walk

/-! A container read back as compact JSON. The pieces written for the tokens of a tree are its compact
form, and the depth tells the end of the container from the ends inside it. -/
namespace AuditLog
open Reading

namespace Reader

def Subtree.text (so : Subtree) : Text := so.pieces.reverse.flatten

def Subtree.push (so : Subtree) (token : Token) : Subtree :=
  ⟨piece so.previous token :: so.pieces,token,depthAfter so.depth token⟩

inductive Subtree.Keeps : Subtree → List Token → Subtree → Prop where
  | nil {so} : Keeps so [] so
  | cons {so token ts after} (inside : (so.push token).depth ≠ 0) (rest : Keeps (so.push token) ts after) :
      Keeps so (token :: ts) after

theorem Subtree.keepsAppend {so middle after : Subtree} {ts ts' : List Token} (first : Keeps so ts middle)
    (second : Keeps middle ts' after) : Keeps so (ts ++ ts') after := by
  induction first with
  | nil => exact second
  | cons inside _ ih => exact .cons inside (ih second)

theorem Subtree.textPush (so : Subtree) (token : Token) :
    (so.push token).text = so.text ++ piece so.previous token := by
  simp [text,push]

def comma (previous : Token) : Text := if previous.endsValue then [0x2C] else []

theorem pieceOpening (previous : Token) (container : Container) :
    piece previous (.opening container) = comma previous ++ (Token.opening container).text := by
  simp [piece,comma,Token.closes]

theorem pieceClosing (previous : Token) (container : Container) :
    piece previous (.closing container) = (Token.closing container).text := by
  simp [piece,Token.closes]

theorem pieceField (previous : Token) (name : Text) :
    piece previous (.field name) = comma previous ++ Quoted.quote name ++ [0x3A] := by
  simp [piece,comma,Token.closes]

theorem pieceLeaf (previous : Token) {j : Json} (leaf : j.others = []) :
    piece previous j.first = comma previous ++ j.compact := by
  cases j with
  | flag value => cases value <;> simp [piece,comma,Token.closes,Json.first,Json.compact,Token.text,Scalar.text]
  | array items => simp [Json.others] at leaf
  | object members => simp [Json.others] at leaf
  | _ => simp [piece,comma,Token.closes,Json.first,Json.compact,Token.text,Scalar.text]

namespace Subtree

theorem keepsLeaf {so : Subtree} {j : Json} {scalar : Scalar} (inside : so.depth ≠ 0)
    (first : j.first = .scalar scalar) (leaf : j.others = []) :
    ∃ after, Keeps so j.tokens after ∧ after.depth = so.depth ∧ after.previous.endsValue = true ∧
      after.text = so.text ++ comma so.previous ++ j.compact := by
  have depth : (so.push j.first).depth = so.depth := by rw [first]; rfl
  refine ⟨so.push j.first,?_,depth,by rw [first]; rfl,?_⟩
  · rw [j.tokensParts,leaf]
    exact .cons (by rw [depth]; exact inside) .nil
  · rw [textPush,pieceLeaf so.previous leaf,List.append_assoc]

theorem keepsContainer {so middle : Subtree} {container : Container} {ts : List Token} {written : Text}
    (inside : so.depth ≠ 0) (entries : Keeps (so.push (.opening container)) ts middle)
    (depth : middle.depth = so.depth + 1)
    (text : middle.text ++ (Token.closing container).text = (so.push (.opening container)).text ++ written) :
    ∃ after, Keeps so (.opening container :: (ts ++ [.closing container])) after ∧ after.depth = so.depth ∧
      after.previous.endsValue = true ∧
      after.text = so.text ++ comma so.previous ++ ((Token.opening container).text ++ written) := by
  have back : (middle.push (.closing container)).depth = so.depth := by simp [push,depthAfter,depth]
  refine ⟨middle.push (.closing container),?_,back,rfl,?_⟩
  · refine .cons (Nat.succ_ne_zero _) (keepsAppend entries (.cons ?_ .nil))
    rw [back]; exact inside
  · rw [textPush,pieceClosing,text,textPush,pieceOpening]
    simp

mutual
theorem keepsValue (so : Subtree) (inside : so.depth ≠ 0) : (j : Json) →
    ∃ after, Keeps so j.tokens after ∧ after.depth = so.depth ∧ after.previous.endsValue = true ∧
      after.text = so.text ++ comma so.previous ++ j.compact
  | .null => keepsLeaf inside rfl rfl
  | .flag true => keepsLeaf inside rfl rfl
  | .flag false => keepsLeaf inside rfl rfl
  | .number _ => keepsLeaf inside rfl rfl
  | .string _ => keepsLeaf inside rfl rfl
  | .array items => by
      obtain ⟨middle,entries,depth,text⟩ := keepsItems (so.push (.opening .array)) (Nat.succ_ne_zero _) items
      have none : comma (so.push (.opening .array)).previous = [] := rfl
      rw [none,ite_self,List.append_nil] at text
      exact keepsContainer inside entries depth text
  | .object members => by
      obtain ⟨middle,entries,depth,text⟩ := keepsMembers (so.push (.opening .object)) (Nat.succ_ne_zero _) members
      have none : comma (so.push (.opening .object)).previous = [] := rfl
      rw [none,ite_self,List.append_nil] at text
      exact keepsContainer inside entries depth text

theorem keepsItems (so : Subtree) (inside : so.depth ≠ 0) : (items : List Json) →
    ∃ after, Keeps so (Json.itemTokens items) after ∧ after.depth = so.depth ∧
      after.text ++ [0x5D] =
        so.text ++ (if items.isEmpty then [] else comma so.previous) ++ Json.compactItems items
  | [] => ⟨so,.nil,rfl,by simp [Json.compactItems]⟩
  | item :: rest => by
      obtain ⟨middle,first,depth,ends,text⟩ := keepsValue so inside item
      obtain ⟨after,others,depth',text'⟩ := keepsItems middle (by rw [depth]; exact inside) rest
      refine ⟨after,keepsAppend first others,depth'.trans depth,?_⟩
      rw [text',text]
      cases rest <;> simp [Json.compactItems,comma,ends]

theorem keepsMembers (so : Subtree) (inside : so.depth ≠ 0) : (members : List (Text × Json)) →
    ∃ after, Keeps so (Json.memberTokens members) after ∧ after.depth = so.depth ∧
      after.text ++ [0x7D] =
        so.text ++ (if members.isEmpty then [] else comma so.previous) ++ Json.compactMembers members
  | [] => ⟨so,.nil,rfl,by simp [Json.compactMembers]⟩
  | (name,value) :: rest => by
      obtain ⟨middle,first,depth,ends,text⟩ := keepsValue (so.push (.field name)) inside value
      obtain ⟨after,others,depth',text'⟩ := keepsMembers middle (by rw [depth]; exact inside) rest
      refine ⟨after,.cons inside (keepsAppend first others),depth'.trans depth,?_⟩
      have key : comma (so.push (.field name)).previous = [] := rfl
      rw [text',text,key,textPush,pieceField]
      cases rest <;> simp [Json.compactMembers,comma,ends]
end

def opened (container : Container) : Subtree := ⟨[(Token.opening container).text],.opening container,1⟩

theorem openedText (container : Container) : (opened container).text = (Token.opening container).text :=
  List.append_nil _

theorem keepsInside {j : Json} {container : Container} (first : j.first = .opening container) :
    ∃ ts middle, j.others = ts ++ [.closing container] ∧ Keeps (opened container) ts middle ∧ middle.depth = 1 ∧
      middle.text ++ (Token.closing container).text = j.compact := by
  cases j with
  | array items =>
      cases first
      obtain ⟨middle,keeps,depth,written⟩ := keepsItems (opened .array) Nat.one_ne_zero items
      refine ⟨_,middle,rfl,keeps,depth,written.trans ?_⟩
      rw [openedText]
      simp [opened,comma,Token.endsValue,Token.text,Json.compact]
  | object members =>
      cases first
      obtain ⟨middle,keeps,depth,written⟩ := keepsMembers (opened .object) Nat.one_ne_zero members
      refine ⟨_,middle,rfl,keeps,depth,written.trans ?_⟩
      rw [openedText]
      simp [opened,comma,Token.endsValue,Token.text,Json.compact]
  | flag value => cases value <;> cases first
  | _ => cases first

end Subtree

theorem subtreeStepPush (so : Subtree) (token : Token) :
    subtreeStep so token =
      pure (if (so.push token).depth = 0 then .inr (so.push token).text else .inl (so.push token)) := rfl

theorem loopKeeps {so after : Subtree} {ts : List Token} {s : Session} {d : Cursor}
    (keeps : so.Keeps ts after) (walk : Cursor.Walk s.cursor ts d) :
    loopFrom subtreeStep subtreeUnended so s =
      loopFrom subtreeStep subtreeUnended after { s with cursor := d } := by
  induction keeps generalizing s with
  | nil => cases walk; rfl
  | cons inside _ ih =>
      cases walk with
      | @cons _ e _ _ _ stepped rest =>
          have later := ih (s := { s with cursor := e }) rest
          rw [loopUnfold,Cursor.nextRun stepped]
          simp only [subtreeStepPush,if_neg inside,runPure]
          exact later

theorem loopCloses {so middle : Subtree} {ts : List Token} {container : Container} {s : Session} {d : Cursor}
    (keeps : so.Keeps ts middle) (last : middle.depth = 1)
    (walk : Cursor.Walk s.cursor (ts ++ [.closing container]) d) :
    loopFrom subtreeStep subtreeUnended so s =
      (.ok (middle.text ++ (Token.closing container).text),{ s with cursor := d }) := by
  obtain ⟨c,first,final⟩ := Cursor.walkSplit walk
  cases final with
  | cons stepped rest =>
      cases rest
      have back : (middle.push (.closing container)).depth = 0 := by simp [Subtree.push,depthAfter,last]
      rw [loopKeeps keeps first,loopUnfold,Cursor.nextRun stepped]
      simp only [subtreeStepPush,if_pos back,runPure,Subtree.textPush,pieceClosing]

theorem subtreeRead {s : Session} {d : Cursor} {j : Json} {container : Container}
    (first : j.first = .opening container) (stands : s.cursor.current = some (.opening container))
    (walk : Cursor.Walk s.cursor j.others d) :
    subtree.run s = (.ok j.compact,{ s with cursor := d }) := by
  obtain ⟨ts,middle,others,keeps,depth,written⟩ := Subtree.keepsInside first
  have entered : subtree.run s = loopFrom subtreeStep subtreeUnended (Subtree.opened container) s := by
    simp only [subtree,runBind,runState,stands]; rfl
  rw [others] at walk
  rw [entered,loopCloses keeps depth walk,written]

end Reader
end AuditLog
