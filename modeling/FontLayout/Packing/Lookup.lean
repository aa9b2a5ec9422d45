import FontLayout.Packing.Attachment
import FontLayout.Packing.Contextual
/-!
# Packing a lookup

The rules of a lookup, distinct and looked at, become its subtables. The kind decides how: it tells
what the rules have for items, and which packer takes these.
-/
namespace FontLayout
namespace Packing

/-- A packer, and the items that it is given. -/
structure Plan where
  Item : Type
  State : Type
  packer : Packer Item State
  items : List (Item × Bool)

/-- How the rules of a lookup are packed. Contextual rules need the places of the table's lookups,
and rules that attach marks need the marks. -/
def planOf (kind : Kind) (rules : List Rule) (marks : Option MarkSet) (places : LookupPlaces) :
    Plan :=
  let marks := marks.getD ⟨[], .empty⟩
  match kind with
  | .singleSub => ⟨_, _, single, itemsOf singleItem? rules⟩
  | .multipleSub => ⟨_, _, sequences .multipleSub, itemsOf sequenceItem? rules⟩
  | .alternateSub => ⟨_, _, sequences .alternateSub, itemsOf sequenceItem? rules⟩
  | .ligatureSub => ⟨_, _, ligatures, itemsOf ligatureItem? rules⟩
  | .chainSub | .chainPos => ⟨_, _, chains places, itemsOf RuleBody.context? rules⟩
  | .reverseChainSub => ⟨_, _, reverseChains, itemsOf reverseItem? rules⟩
  | .singlePos => ⟨_, _, singlePositions, itemsOf singlePosItem? rules⟩
  | .pairPos => ⟨_, _, pairs, itemsOf pairItem? rules⟩
  | .cursivePos => ⟨_, _, cursive, itemsOf cursiveItem? rules⟩
  | .markToBase => ⟨_, _, attachments marks rowBytes .markToBase, baseItems marks rules⟩
  | .markToMark => ⟨_, _, attachments marks rowBytes .markToMark, baseItems marks rules⟩
  | .markToLigature =>
    ⟨_, _, attachments marks attachBytes .markToLigature, ligatureItems marks rules⟩

end Packing

/-- The subtables of a lookup. -/
def packLookup (kind : Kind) (rules : List Rule) (marks : Option MarkSet) (places : LookupPlaces)
    (budget : Budget) : Packed :=
  let plan := Packing.planOf kind rules marks places
  plan.packer.pack budget plan.items

end FontLayout
