import Commission.NameMap

/-!
The fields that conditions may test, as a set in order of names.
-/
namespace Commission

structure FieldSet where
  members : NameMap Unit

namespace FieldSet

def empty : FieldSet := ⟨.empty⟩

def insert (s : FieldSet) (name : String) : FieldSet := ⟨s.members.insert name ()⟩

def ofList (names : List String) : FieldSet := ⟨.ofList (names.map fun name => (name, ()))⟩

def contains (s : FieldSet) (name : String) : Bool := s.members.contains name

def size (s : FieldSet) : Nat := s.members.size

def isEmpty (s : FieldSet) : Bool := s.members.isEmpty

def names (s : FieldSet) : List String := s.members.names

def commission : FieldSet :=
  ofList ["sale_amount", "sale_date", "quantity", "unit_price", "discount", "margin", "currency",
    "product_id", "product_type", "product_category", "customer_id", "customer_type",
    "customer_tier", "is_new_customer", "is_renewal", "contract_length", "payment_terms",
    "region", "territory", "sales_channel", "sales_rep_id", "sales_rep_level", "tenure_months",
    "quota", "quota_attainment", "bonus", "base_rate", "commission_rate"]

theorem contains_iff (s : FieldSet) (name : String) : s.contains name ↔ name ∈ s.names := by
  simp [contains, names, NameMap.contains, NameMap.names, NameMap.get?, List.lookup_isSome_iff]

end FieldSet

end Commission
