import CoreWar.Main
import CoreWar.Random.Counter
import CoreWar.Proofs.Listing.RoundTrip
import CoreWar.Proofs.Assembly.References
import CoreWar.Proofs.Match.Settlement
import CoreWar.Proofs.Match.Conservation
import CoreWar.Proofs.Match.Timeline
import CoreWar.Proofs.Match.Turns
import CoreWar.Proofs.Match.LastStanding
import CoreWar.Proofs.Match.Observation
import CoreWar.Proofs.Machine.Relocation
import CoreWar.Proofs.Machine.Independence
import CoreWar.Proofs.Machine.Branching
import CoreWar.Proofs.Match.FullLog
import CoreWar.Proofs.Configuration.Validity
import CoreWar.Proofs.Machine.Quotients
import CoreWar.Proofs.Machine.Shifts
import CoreWar.Proofs.Machine.Increments
import CoreWar.Proofs.Machine.Exchange
import CoreWar.Proofs.Machine.ThreadEffect
import CoreWar.Proofs.Listing.Canonical
import CoreWar.Proofs.Assembly.Shadowing
import CoreWar.Proofs.Assembly.Overflow
import CoreWar.Proofs.Assembly.Composition
import CoreWar.Proofs.Assembly.Rewording
import CoreWar.Proofs.Configuration.Surplus
import CoreWar.Proofs.Configuration.Costs
import CoreWar.Proofs.Match.ThreadQueue
import CoreWar.Proofs.Match.LogText
