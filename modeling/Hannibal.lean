import Hannibal.Requests
import Hannibal.Restart
import Hannibal.Lookups
import Hannibal.Delivery
import Hannibal.Backpressure
import Hannibal.Announcement
import Hannibal.LoopsAgree
import Hannibal.Stopping
import Hannibal.Timers
import Hannibal.Paths
import Hannibal.Questions
import Hannibal.Peeking
import Hannibal.Cleanup
import Hannibal.Consuming
import Hannibal.SelfStop
import Hannibal.Forgetting
import Hannibal.Aborting
import Hannibal.Backlog
import Hannibal.Atomicity
import Hannibal.Children
import Hannibal.Ownership
import Hannibal.Resting
import Hannibal.Sequential
import Hannibal.Shutdown
import Hannibal.Supervision
import Hannibal.Ticking
import Hannibal.Upkeep
